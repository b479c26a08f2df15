/-
RamlSchema/Proofs/Command/Effects.lean

What a run of the command line leaves behind, and what it says about it.

A run goes through stages that may each fail: reading options, reading types, making the
output directory, and saving one document after another.  Before the third no file is
touched; behind it the documents are saved in their order up to the first that cannot
be.  What is printed tells the same, document by document, and the exit status is zero
where every stage has succeeded and no type has failed (`Leaves`).

Main result: `run_effects`.
-/
import RamlSchema.Proofs.Command.Saving

namespace RamlSchema

variable {output : String} {total : Nat} {r : Outcome} {done rest : Members SchemaNode}
  {t t' : Tree} {report : Report}

/-! ### Saving an outcome -/

/-- What is left of an outcome of `total` types that is to be saved: directories, the
documents `done` in files, and a report.  The documents `rest` are not saved. -/
structure Leaves (output : String) (total : Nat) (r : Outcome) (done rest : Members SchemaNode)
    (t t' : Tree) (report : Report) : Prop where
  split : r.documents = done ++ rest
  saved : report.saved = done.map fun d => documentPath output d.1
  saves : ∃ made, t.Grows made ∧ Saves output done made t'
  directory : done ≠ [] → (t'.directoryAt? output).isSome
  /-- With a directory to save them in, documents are saved up to the first that cannot
  be. -/
  refused : (t'.directoryAt? output).isSome →
    ∀ d ∈ rest.head?, ¬ t'.Accepts (documentPath output d.1)
  problem : report.problem = none ↔
    (t'.directoryAt? output).isSome ∧ rest = [] ∧ r.failures = []
  /-- Failures are told behind the last document. -/
  failures : (t'.directoryAt? output).isSome → rest = [] → r.failures ≠ [] →
    report.failures = r.failures ∧ report.problem = some (.failures r.failures.length total)

/-- The directory that is made is there behind the documents, and only then. -/
theorem Saves.isSome_directoryAt? {docs : Members SchemaNode} {path : String}
    (h : Saves output docs t t') : (t'.directoryAt? path).isSome = (t.directoryAt? path).isSome := by
  rw [Bool.eq_iff_iff, Option.isSome_iff_exists, Option.isSome_iff_exists]
  exact ⟨fun ⟨d, hd⟩ => ⟨d, h.keeps_back.directoryAt? hd⟩, fun ⟨d, hd⟩ => ⟨d, h.keeps.directoryAt? hd⟩⟩

theorem exists_leaves (houtput : output ≠ "") (total : Nat) (r : Outcome) (t : Tree) :
    let run := (saveOutcome output total r : StateM Tree _).run t
    ∃ done rest, Leaves output total r done rest t run.2 run.1 := by
  have hgrows := t.grows_makeDirectories output
  have hiff := Tree.makeDirectories_iff (t := t) houtput
  rw [← Option.isSome_iff_exists] at hiff
  rw [run_saveOutcome]
  rcases hmade : t.makeDirectories output with ⟨- | -, t₁⟩ <;> rw [hmade] at hgrows hiff
  · -- without the directory nothing is saved
    have hnone : ¬ (t₁.directoryAt? output).isSome := fun h => nomatch hiff.mpr h
    exact ⟨[], r.documents, {
      split := rfl
      saved := rfl
      saves := ⟨t₁, hgrows, .nil (.refl t₁)⟩
      directory := absurd rfl
      refused := fun h => absurd h hnone
      problem := ⟨nofun, fun h => absurd h.1 hnone⟩
      failures := fun h => absurd h hnone }⟩
  · obtain ⟨done, rest, hsplit, hsaves, htold, hcomplete, hrefused⟩ :=
      exists_saves output r.documents t₁
    have hthere := hsaves.isSome_directoryAt?.trans (hiff.mp rfl)
    refine ⟨done, rest, {
      split := hsplit
      saved := (r.saved_report total _).trans htold
      saves := ⟨t₁, hgrows, hsaves⟩
      directory := fun _ => hthere
      refused := fun _ => hrefused
      problem := ?_
      failures := fun _ hrest hfailures => ?_ }⟩
    · rw [Outcome.problem_report_iff, hcomplete]
      exact ⟨fun h => ⟨hthere, h⟩, fun h => h.2⟩
    · have hnone := hcomplete.mpr hrest
      rcases hrun : ((saveDocuments output r.documents : StateM Tree _).run t₁).1 with ⟨saved, p⟩
      rw [hrun] at hnone
      obtain rfl : p = none := hnone
      simp [Outcome.report, hrun, hfailures]

/-! ### What has changed -/

namespace Leaves

variable (h : Leaves output total r done rest t t' report)
include h

/-- **A place that is not as it was** is a directory that has been made, or has a
document that was saved. -/
theorem get? (x : Place) : t'.get? x = t.get? x ∨
    t.get? x = none ∧ t'.get? x = some .directory ∨
    ∃ T n, (T, n) ∈ done ∧ t'.walk (documentPath output T) = .ok x ∧
      t'.get? x = some (.file (documentContent n)) := by
  obtain ⟨made, hgrows, hsaves⟩ := h.saves
  exact hsaves.get?_of_grows hgrows x

theorem outputLines :
    report.outputLines = done.map fun d => "Saved " ++ documentPath output d.1 := by
  rw [Report.outputLines, h.saved, List.map_map]
  rfl

theorem exitStatus_iff : report.exitStatus = 0 ↔
    (t'.directoryAt? output).isSome ∧ rest = [] ∧ r.failures = [] := by
  rw [Report.exitStatus_eq_zero_iff, h.problem]

/-- Behind the last document there is a line for each type that failed, and one with
their number. -/
theorem errorLines (hdirectory : (t'.directoryAt? output).isSome) (hrest : rest = [])
    (hfailures : r.failures ≠ []) : report.errorLines =
      r.failures.map (fun f => "Error: type \x60" ++ f.name ++ "\x60 skipped: " ++ f.error.message)
        ++ ["Error: " ++ (Problem.failures r.failures.length total).message] := by
  obtain ⟨htold, hproblem⟩ := h.failures hdirectory hrest hfailures
  rw [Report.errorLines, htold, hproblem]
  rfl

end Leaves

/-! ### Runs -/

/-- **What a run does, stage by stage.**  If its options or its types cannot be read, all
files are as they were, nothing is printed, and the exit status is 1.  Otherwise a front
`done` of the documents is saved in order, with a line for each; where the output
directory could be made, the first of the others has a path that does not accept a file.
Whatever is not as it was is a directory that has been made, or the place of a document
of `done` with its whole content, so that no other file is left behind.  The exit status
is 0 if and only if the output directory is there, all documents are saved and no type
has failed; and when all are saved, there is a line for each type that failed, in order,
before the line that counts them. -/
theorem run_effects {arguments : List String} {a : Arguments}
    (ha : Arguments.read arguments = .ok a) (t : Tree) :
    let run := (runCommand arguments : StateM Tree Reply).run t
    let options := ((readOptions a : StateM Tree _).run t).1
    let graph := ((Loading.ofFile a.file : StateM Tree _).run t).1.result
    ((∃ e, options = .error e) ∨ (∃ e, graph = .error e) →
      run.2 = t ∧ run.1.outputLines = [] ∧ run.1.exitStatus = 1) ∧
    ∀ o g, options = .ok o → graph = .ok g →
      let r := normalize g o
      ∃ done rest, r.documents = done ++ rest ∧
        run.1.outputLines = done.map (fun d => "Saved " ++ documentPath a.output d.1) ∧
        (∃ made, t.Grows made ∧ Saves a.output done made run.2) ∧
        (done ≠ [] → (run.2.directoryAt? a.output).isSome) ∧
        ((run.2.directoryAt? a.output).isSome →
          ∀ d ∈ rest.head?, ¬ run.2.Accepts (documentPath a.output d.1)) ∧
        (∀ x, run.2.get? x = t.get? x ∨ t.get? x = none ∧ run.2.get? x = some .directory ∨
          ∃ T n, (T, n) ∈ done ∧ run.2.walk (documentPath a.output T) = .ok x ∧
            run.2.get? x = some (.file (documentContent n))) ∧
        (run.1.exitStatus = 0 ↔
          (run.2.directoryAt? a.output).isSome ∧ rest = [] ∧ r.failures = []) ∧
        ((run.2.directoryAt? a.output).isSome → rest = [] → r.failures ≠ [] →
          run.1.errorLines =
            r.failures.map (fun f =>
              "Error: type \x60" ++ f.name ++ "\x60 skipped: " ++ f.error.message)
            ++ ["Error: " ++ (Problem.failures r.failures.length g.size).message]) := by
  intro run options graph
  have hrun : run = _ := run_runCommand_eq ha t
  refine ⟨fun hfailed => ?_, fun o g ho hg => ?_⟩
  · obtain ⟨htree, hsaved, hproblem⟩ :=
      run_convert_of_none (Arguments.outcome?_eq_none_iff.mpr hfailed)
    rw [hrun]
    exact ⟨htree, by simp [Report.outputLines, hsaved], by simp [Report.exitStatus, hproblem]⟩
  · have hconvert := run_convert a t
    simp only [options] at ho
    simp only [graph] at hg
    simp only [ho, hg] at hconvert
    obtain ⟨done, rest, h⟩ :=
      exists_leaves (Arguments.output_ne_empty ha) g.size (normalize g o) t
    rw [hrun, hconvert]
    exact ⟨done, rest, h.split, h.outputLines, h.saves, h.directory, h.refused, h.get?,
      h.exitStatus_iff, h.errorLines⟩

/-- Three types, of which one is malformed, and a directory where the document of another
should be saved. -/
def blockedTree : Tree where
  entries :=
    (["out"], .directory) :: (["out", "Deck.json"], .directory) ::
      (typesTree ("\x7b\"Card\": \x7b\"type\": \"string\"\x7d, "
        ++ "\"Deck\": \x7b\"type\": \"integer\"\x7d, \"Bad\": \x7b\"type\": 7\x7d\x7d")).entries

/-- The first document is saved, and the path of the second does not accept a file. -/
theorem run_effects_blocked :
    let run := (runCommand ["-f", "types.json"] : StateM Tree Reply).run blockedTree
    run.1.outputLines = ["Saved out/Card.json"] ∧ run.1.exitStatus = 1 ∧
      ¬ run.2.Accepts (documentPath "out" "Deck") := by
  have ha : Arguments.read ["-f", "types.json"] = .ok { file := "types.json" } := by
    decide +kernel
  have hkeys : (Arguments.outcome? { file := "types.json" } blockedTree).map
      (fun r => r.documents.keys) = some ["Card", "Deck"] := by decide +kernel
  have hrun : let run := (runCommand ["-f", "types.json"] : StateM Tree Reply).run blockedTree
      run.1.outputLines = ["Saved out/Card.json"] ∧ run.1.exitStatus = 1 ∧
        (run.2.directoryAt? "out").isSome := by decide +kernel
  obtain ⟨hlines, hexit, hdirectory⟩ := hrun
  obtain ⟨r, hr, hkeys⟩ := Option.map_eq_some_iff.mp hkeys
  obtain ⟨o, g, ho, hg, rfl⟩ := Arguments.outcome?_eq_some_iff.mp hr
  obtain ⟨done, rest, hsplit, htold, -, -, hrefused, -⟩ :=
    (run_effects ha blockedTree).2 o g ho hg
  -- one document is told to be saved, so that the next one is that of `Deck`
  rw [hlines] at htold
  obtain ⟨d, rfl, -⟩ := List.map_eq_singleton_iff.mp htold.symm
  rw [hsplit, Members.keys, List.map_append] at hkeys
  obtain ⟨e, rest, rfl, hdeck, -⟩ := List.map_eq_cons_iff.mp (List.cons.inj hkeys).2
  have houtput : ({ file := "types.json" } : Arguments).output = "out" := rfl
  rw [houtput] at hrefused
  have hnext := hrefused hdirectory e rfl
  rw [hdeck] at hnext
  exact ⟨hlines, hexit, hnext⟩

end RamlSchema
