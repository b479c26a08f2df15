/-
RamlSchema/Proofs/Normalize/Paths.lean

What a path tells.

The keys along the steps of a way are a code without ambiguity: behind `properties`
stands a name, whatever it is, and `items` stands by itself.  So from the text of a path
within one type the way can be read back, and where no object repeats a key there is but
one value at its end.

Main result: `paths_unambiguous`.
-/
import RamlSchema.Proofs.Normalize.Errors
import RamlSchema.Proofs.Pointer

namespace RamlSchema

open Json

/-- Steps can be told from the keys along them. -/
theorem Step.flatMap_keys_inj {steps others : List Step} :
    steps.flatMap Step.keys = others.flatMap Step.keys ↔ steps = others := by
  refine ⟨fun h => ?_, fun h => h ▸ rfl⟩
  induction steps generalizing others with
  | nil =>
    rcases others with - | ⟨other, others⟩
    · rfl
    · cases other <;> simp [Step.keys] at h
  | cons step steps ih =>
    rcases others with - | ⟨other, others⟩
    · cases step <;> simp [Step.keys] at h
    · cases step with
      | items =>
        cases other with
        | items => rw [ih (by simpa [Step.keys] using h)]
        | property _ => simp [Step.keys] at h
      | property name =>
        cases other with
        | items => simp [Step.keys] at h
        | property other =>
          obtain ⟨rfl, hrest⟩ :
              name = other ∧ steps.flatMap Step.keys = others.flatMap Step.keys := by
            simpa [Step.keys] using h
          rw [ih hrest]

/-! ### Where a way ends -/

namespace Json

variable {tree c d v w : Json} {ms : Members Json} {step : Step} {steps : List Step}

theorem DeclaresItems.unique (h : DeclaresItems ms v) (h' : DeclaresItems ms w) : v = w :=
  Option.some.inj (h.items.symm.trans h'.items)

theorem ItemsNode.unique (h : ItemsNode v c) (h' : ItemsNode v d) : c = d := by
  cases h <;> cases h' <;> rfl

/-- What passes from a value to its members is passed on along a step. -/
theorem StepsTo.of_hereditary {P : Json → Prop} (hP : Hereditary P) (hms : P (.obj ms))
    (h : StepsTo ms step c) : P c := by
  have hmember : ∀ k v, ms.get? k = some v → P v :=
    fun k v hv => hP.member ms k v hms (Members.mem_of_get? hv)
  cases h with
  | property hps hc => exact hP.member _ _ _ (hmember _ _ hps) hc
  | element _ _ => exact hP.expression _ (hP.text _)
  | items hv hc =>
    have hitems := hmember _ _ hv.items
    cases hc with
    | text => exact hP.expression _ hitems
    | candidates => exact hP.expression _ hitems
    | node => exact hitems
  | value hv _ => exact hmember _ _ hv.items

/-- Where no name is repeated, a step leads to one value. -/
theorem StepsTo.unique (hms : (Json.obj ms).WellFormed) (h : StepsTo ms step c)
    (h' : StepsTo ms step d) : c = d := by
  cases h with
  | property hps hc =>
    cases h' with
    | property hps' hd =>
      cases hps.symm.trans hps'
      have hnodup : (Members.keys _).Nodup :=
        (hereditary_wellFormed.member ms _ _ hms (Members.mem_of_get? hps)).1
      rw [← Members.get?_eq_some_iff_mem hnodup] at hc hd
      exact Option.some.inj (hc.symm.trans hd)
  | element he _ =>
    cases h' with
    | element he' _ =>
      cases NodeShape.writesType_unique he he'
      rfl
    | items hv _ => exact absurd he (hv.type _)
    | value hv _ => exact absurd he (hv.type _)
  | items hv hc =>
    cases h' with
    | element he _ => exact absurd he (hv.type _)
    | items hv' hd =>
      obtain rfl := hv.unique hv'
      exact hc.unique hd
    | value hv' hnone =>
      obtain rfl := hv.unique hv'
      exact absurd hc (hnone _)
  | value hv hnone =>
    cases h' with
    | element he _ => exact absurd he (hv.type _)
    | items hv' hd =>
      obtain rfl := hv.unique hv'
      exact absurd hd (hnone _)
    | value hv' _ => exact hv.unique hv'

theorem Way.of_hereditary {P : Json → Prop} (hP : Hereditary P) (htree : P tree)
    (h : tree.Way steps c) : P c := by
  induction h with
  | root => exact htree
  | step _ hstep ih => exact hstep.of_hereditary hP ih

/-- The last step of a way leads on from the end of the way before it. -/
theorem Way.of_concat (h : tree.Way (steps ++ [step]) c) :
    ∃ ms, tree.Way steps (.obj ms) ∧ StepsTo ms step c := by
  generalize hsteps : steps ++ [step] = all at h
  cases h with
  | root => simp at hsteps
  | step hway hstep =>
    obtain ⟨rfl, hlast⟩ := List.append_inj' hsteps rfl
    obtain rfl := List.singleton_inj.mp hlast
    exact ⟨_, hway, hstep⟩

/-- **Where no object repeats a key, a way ends at one value.** -/
theorem Way.unique (htree : tree.WellFormed) (h : tree.Way steps c) (h' : tree.Way steps d) :
    c = d := by
  induction h generalizing d with
  | root =>
    generalize hsteps : ([] : List Step) = all at h'
    cases h' with
    | root => rfl
    | step _ _ => simp at hsteps
  | @step steps ms step c hway hstep ih =>
    obtain ⟨ns, hway', hstep'⟩ := h'.of_concat
    cases ih hway'
    exact hstep.unique (hway.of_hereditary hereditary_wellFormed htree) hstep'

end Json

/-! ### Paths as texts -/

/-- **Paths are unambiguous pointers.**  Undoing the escapes of a text gives the text
back, and the escaped text has neither a slash nor a tilde but in `~0` and `~1`.  From a
parent, different lists of names lead to different pointers, and it makes no difference
in how many parts a pointer is built.  So within one type a path tells where it leads:
if no object in the tree repeats a key, ways with one path end at one value. -/
theorem paths_unambiguous :
    (∀ name, Pointer.unescape (Pointer.escape name) = name ∧
      Pointer.Escaped (Pointer.escape name).toList) ∧
    (∀ parent names others,
      Pointer.append parent names = Pointer.append parent others ↔ names = others) ∧
    (∀ parent names others,
      Pointer.append parent (names ++ others)
        = Pointer.append (Pointer.append parent names) others) ∧
    (∀ parent names,
      Pointer.append parent names
        = names.foldl (fun path name => Pointer.append path [name]) parent) ∧
    ∀ (T : String) (tree : Json) (steps others : List Step) (c d : Json), tree.WellFormed →
      tree.Way steps c → tree.Way others d →
      (⟨T, steps.flatMap Step.keys⟩ : Location).text
        = (⟨T, others.flatMap Step.keys⟩ : Location).text → c = d := by
  refine ⟨fun name => ?_, fun _ _ _ => Pointer.append_inj, Pointer.append_append, fun _ _ => rfl, ?_⟩
  · exact (Pointer.escape_eq_iff.mp rfl).symm
  · intro T tree steps others c d htree hc hd htext
    -- the pointer gives the keys, the keys give the steps, and these lead to one value
    obtain rfl := Step.flatMap_keys_inj.mp (Pointer.append_inj.mp htext)
    exact hc.unique htree hd

/-- Properties whose names are made of the characters of pointers, or of none. -/
def signs : Json :=
  .ofProperties
    [("/", .ofType (.str "string")), ("~1", .ofType (.str "integer")), ("", .ofType (.str "items")),
      ("items/", .obj [("items", .ofType (.str "~"))])]

/-- The property `~1` and the property `/`, which is spelled `~1`, have different paths,
and whatever way has the path of the first one ends at its node. -/
theorem paths_unambiguous_signs :
    signs.WellFormed ∧ signs.Way [.property "~1"] (.ofType (.str "integer")) ∧
      (⟨"Sign", ["properties", "~1"]⟩ : Location).text = "Sign#/properties/~01" ∧
      (⟨"Sign", ["properties", "/"]⟩ : Location).text = "Sign#/properties/~1" ∧
      ∀ steps d, signs.Way steps d →
        (⟨"Sign", steps.flatMap Step.keys⟩ : Location).text = "Sign#/properties/~01" →
          d = .ofType (.str "integer") := by
  have hwf : signs.WellFormed := by decide
  have hway : signs.Way [.property "~1"] (.ofType (.str "integer")) :=
    Way.root.step (.property rfl (by simp))
  have htext : (⟨"Sign", ["properties", "~1"]⟩ : Location).text = "Sign#/properties/~01" := by
    decide
  refine ⟨hwf, hway, htext, by decide, fun steps d hd hpath => ?_⟩
  obtain ⟨-, -, -, -, hunique⟩ := paths_unambiguous
  exact hunique "Sign" signs steps [.property "~1"] d _ hwf hd hway (hpath.trans htext.symm)

end RamlSchema
