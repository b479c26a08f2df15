/-
RamlSchema/Proofs/Files/Path.lean

Names in paths.

Slashes part a path wherever they stand, so a path that is put together has the names
of its parts.  A file name without a slash is a single name, and the path of such a file
in a directory has the names of the directory and this one behind them.

Main result: `names_join`.
-/
import RamlSchema.Files.Path

namespace RamlSchema.Path

variable {path name : String} {cs ds : List Char}

/-! ### Splitting at slashes -/

theorem splitSlashes_ne_nil (cs : List Char) : splitSlashes cs ≠ [] := by
  fun_cases splitSlashes cs <;> simp

theorem splitSlashes_cons (cs : List Char) {c : Char} (hc : c ≠ '/') :
    ∃ p ps, splitSlashes cs = p :: ps ∧ splitSlashes (c :: cs) = (c :: p) :: ps := by
  obtain ⟨p, ps, h⟩ := List.exists_cons_of_ne_nil (splitSlashes_ne_nil cs)
  exact ⟨p, ps, h, by rw [splitSlashes, h]; exact hc⟩

theorem splitSlashes_append (cs ds : List Char) :
    splitSlashes (cs ++ '/' :: ds) = splitSlashes cs ++ splitSlashes ds := by
  induction cs with
  | nil => rfl
  | cons c cs ih =>
    by_cases hc : c = '/'
    · subst hc
      rw [List.cons_append, splitSlashes, ih]
      rfl
    · obtain ⟨p, ps, hcs, hcons⟩ := splitSlashes_cons cs hc
      obtain ⟨q, qs, happend, hcons'⟩ := splitSlashes_cons (cs ++ '/' :: ds) hc
      rw [ih, hcs, List.cons_append, List.cons.injEq] at happend
      obtain ⟨rfl, rfl⟩ := happend
      rw [List.cons_append, hcons', hcons, List.cons_append]

theorem splitSlashes_of_notMem (h : '/' ∉ cs) : splitSlashes cs = [cs] := by
  induction cs with
  | nil => rfl
  | cons c cs ih =>
    have hc : c ≠ '/' := fun hc => h (hc ▸ List.mem_cons_self)
    obtain ⟨p, ps, hcs, hcons⟩ := splitSlashes_cons cs hc
    rw [ih fun h' => h (List.mem_cons_of_mem _ h'), List.cons.injEq] at hcs
    obtain ⟨rfl, rfl⟩ := hcs
    exact hcons

/-! ### Names -/

/-- A path without names is made of slashes. -/
theorem isAbsolute_of_names_eq_nil (h : names path = []) (hpath : path ≠ "") :
    isAbsolute path = true := by
  rcases hlist : path.toList with - | ⟨c, cs⟩
  · exact absurd (String.toList_eq_nil_iff.mp hlist) hpath
  · by_cases hc : c = '/'
    · simp [isAbsolute, hlist, hc]
    · obtain ⟨p, ps, -, hcons⟩ := splitSlashes_cons cs hc
      simp [names, hlist, hcons] at h

/-- The names in a text. -/
def namesOf (cs : List Char) : List String :=
  ((splitSlashes cs).filter (· ≠ [])).map String.ofList

theorem namesOf_append (cs ds : List Char) :
    namesOf (cs ++ '/' :: ds) = namesOf cs ++ namesOf ds := by
  simp [namesOf, splitSlashes_append]

theorem namesOf_of_notMem (hname : name ≠ "") (hslash : '/' ∉ name.toList) :
    namesOf name.toList = [name] := by
  have hne : name.toList ≠ [] := fun h => hname (String.toList_eq_nil_iff.mp h)
  simp [namesOf, splitSlashes_of_notMem hslash, hne]

/-! ### Files in directories -/

section

variable {directory : String} (hdirectory : directory ≠ "") (hslash : '/' ∉ name.toList)
include hdirectory hslash

/-- A slash comes before the name, be it that of the directory. -/
theorem exists_toList_join : ∃ ds, (join directory name).toList = ds ++ '/' :: name.toList ∧
    (directory.toList = ds ∨ directory.toList = ds ++ ['/']) := by
  have hrelative : isAbsolute name = false := by
    rw [isAbsolute, decide_eq_false_iff_not]
    exact fun h => hslash (List.mem_of_head? h)
  have hsome : directory.isEmpty = false := by simpa using hdirectory
  simp only [join, hrelative, hsome, Bool.false_or, Bool.false_eq_true, if_false]
  split
  · rename_i hlast
    obtain ⟨ds, hds⟩ := List.getLast?_eq_some_iff.mp (of_decide_eq_true hlast)
    exact ⟨ds, by simp [hds], .inr hds⟩
  · exact ⟨directory.toList, by simp, .inl rfl⟩

/-- **A file in a directory has the names of the directory and its own behind them.** -/
theorem names_join (hname : name ≠ "") :
    names (join directory name) = names directory ++ [name] := by
  obtain ⟨ds, hjoin, hds⟩ := exists_toList_join hdirectory hslash
  have hnames : namesOf directory.toList = namesOf ds := by
    rcases hds with h | h
    · rw [h]
    · rw [h, namesOf_append]
      exact List.append_nil _
  show namesOf (join directory name).toList = namesOf directory.toList ++ [name]
  rw [hjoin, namesOf_append, namesOf_of_notMem hname hslash, hnames]

theorem isAbsolute_join : isAbsolute (join directory name) = isAbsolute directory := by
  obtain ⟨ds, hjoin, hds⟩ := exists_toList_join hdirectory hslash
  unfold isAbsolute
  rw [hjoin]
  rcases hds with h | h
  · rw [h]
    cases ds with
    | nil => exact absurd (String.toList_eq_nil_iff.mp h) hdirectory
    | cons d ds => rfl
  · rw [h]
    cases ds <;> rfl

end

end RamlSchema.Path
