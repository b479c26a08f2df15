/-
RamlSchema/Proofs/Command/Arguments.lean

What arguments that are accepted say.

No path that is given is empty, and each way of taking an argument keeps it so
(`Named`).  The output directory has a name of its own where none is given.

Main result: `output_ne_empty`.
-/
import RamlSchema.Command.Arguments
import RamlSchema.Proofs.Except

namespace RamlSchema.Arguments

variable {g g' : Given} {p : Parameter} {value : String}

/-- No output directory is given, or one that has a name. -/
def Named (g : Given) : Prop :=
  ∀ output, g.output = some output → output ≠ ""

namespace Named

/-- A path that is taken is not empty. -/
theorem of_takePath {old path : Option String} (h : Given.takePath p old value = .ok path) :
    ∀ text, path = some text → text ≠ "" := by
  unfold Given.takePath at h
  split at h
  · cases h
  · split at h
    · cases h
    · rename_i hvalue
      cases h
      rintro text ⟨⟩
      simpa using hvalue

theorem take (hg : Named g) (h : g.take p value = .ok g') : Named g' := by
  cases p with
  | output =>
    obtain ⟨path, hpath, rfl⟩ := Except.map_eq_ok_iff.mp h
    exact of_takePath hpath
  | _ =>
    obtain ⟨_, -, rfl⟩ := Except.map_eq_ok_iff.mp h
    exact hg

theorem takeVerbose (hg : Named g) (h : g.takeVerbose = .ok g') : Named g' := by
  unfold Given.takeVerbose at h
  split at h
  · cases h
  · cases h
    exact hg

theorem takeLong {name : String} {given : Option String} {pending : Option Parameter}
    (hg : Named g) (h : takeLong g name given = .ok (g', pending)) : Named g' := by
  unfold Arguments.takeLong at h
  split at h
  · cases h
  · obtain ⟨g₁, hg₁, heq⟩ := Except.map_eq_ok_iff.mp h
    cases heq
    exact hg.take hg₁
  · cases h
    exact hg
  · cases h
  · obtain ⟨g₁, hg₁, heq⟩ := Except.map_eq_ok_iff.mp h
    cases heq
    exact hg.takeVerbose hg₁
  · cases h

theorem takeLetters {cs : List Char} {pending : Option Parameter} (hg : Named g)
    (h : takeLetters g cs = .ok (g', pending)) : Named g' := by
  induction cs generalizing g with
  | nil =>
    cases h
    exact hg
  | cons c cs ih =>
    rw [Arguments.takeLetters] at h
    split at h
    · cases h
    · cases h
    · split at h
      · cases h
      · rename_i g₁ hverbose
        exact ih (hg.takeVerbose hverbose) h
    · split at h
      · cases h
        exact hg
      all_goals
        obtain ⟨g₁, hg₁, heq⟩ := Except.map_eq_ok_iff.mp h
        cases heq
        exact hg.take hg₁

theorem takeArgument {argument : String} {pending : Option Parameter} (hg : Named g)
    (h : takeArgument g argument = .ok (g', pending)) : Named g' := by
  unfold Arguments.takeArgument at h
  split at h
  · exact hg.takeLong h
  · exact hg.takeLetters h
  · cases h

theorem takeAll {arguments : List String} (hg : Named g) (h : takeAll g arguments = .ok g') :
    Named g' := by
  fun_induction Arguments.takeAll g arguments with
  | case1 => exact Except.ok.inj h ▸ hg
  | case2 => exact Except.ok.inj h ▸ hg
  | case5 g argument rest _ g₁ hargument ih => exact ih (hg.takeArgument hargument) h
  | case8 g argument _ g₁ p hargument value rest _ g₂ hvalue ih =>
    exact ih ((hg.takeArgument hargument).take hvalue) h
  | _ => cases h

end Named

/-- **The output directory has a name.** -/
theorem output_ne_empty {arguments : List String} {a : Arguments}
    (h : Arguments.read arguments = .ok a) : a.output ≠ "" := by
  obtain ⟨g, hg, h⟩ := Except.bind_eq_ok_iff.mp h
  have hnamed : Named g := Named.takeAll (g := {}) nofun hg
  unfold Given.finish at h
  split at h
  · cases h
  · cases h
    rcases houtput : g.output with - | output
    · simp
    · simpa [houtput] using hnamed output houtput

end RamlSchema.Arguments
