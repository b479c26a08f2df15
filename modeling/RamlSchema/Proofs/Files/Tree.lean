/-
RamlSchema/Proofs/Files/Tree.lean

What the operations on a tree change.

A path is walked over directories only, so it leads to where it led as long as no
directory is lost (`Keeps`).  Making directories puts them where nothing stands, and
changes nothing else.  Saving a file changes the place to which its path leads, and that
alone: the name of the new file beside it is the name of no entry, and nothing is left
of it in the end.

Main results: `makeDirectories_iff`, `save_eq_ok_iff`, `save_eq_ok` and `save_eq_error`.
-/
import RamlSchema.Files.Tree
import RamlSchema.Proofs.Except
import RamlSchema.Proofs.Files.Path

namespace RamlSchema.Tree

variable {t t' t₁ : Tree} {p q : Place} {path name : String} {names : List String}

/-! ### Directories that stay -/

/-- No directory is lost, and paths start where they did. -/
structure Keeps (t t' : Tree) : Prop where
  current : t'.current = t.current
  directory : ∀ x, t.get? x = some .directory → t'.get? x = some .directory

namespace Keeps

theorem trans (h : t.Keeps t₁) (h' : t₁.Keeps t') : t.Keeps t' :=
  ⟨h'.current.trans h.current, fun x hx => h'.directory x (h.directory x hx)⟩

/-- A step that is taken starts at a directory, and does not look further. -/
theorem step (h : t.Keeps t') (hstep : t.step p name = .ok q) : t'.step p name = .ok q := by
  unfold Tree.step at hstep ⊢
  split at hstep
  · cases hstep
  · cases hstep
  · rename_i hp
    rw [h.directory p hp]
    exact hstep

theorem steps (h : t.Keeps t') (hsteps : names.foldlM t.step p = .ok q) :
    names.foldlM t'.step p = .ok q := by
  induction names generalizing p with
  | nil => exact hsteps
  | cons name names ih =>
    rw [List.foldlM_cons, Except.bind_eq_ok_iff] at hsteps ⊢
    obtain ⟨p₁, hstep, hrest⟩ := hsteps
    exact ⟨p₁, h.step hstep, ih hrest⟩

theorem start (h : t.Keeps t') (path : String) : t'.start path = t.start path := by
  rw [Tree.start, h.current]
  rfl

/-- **A path leads to where it led.** -/
theorem walk (h : t.Keeps t') (hwalk : t.walk path = .ok q) : t'.walk path = .ok q := by
  unfold Tree.walk at hwalk ⊢
  split at hwalk
  · cases hwalk
  · rename_i husable
    split at hwalk
    · cases hwalk
    · rename_i hempty
      rw [if_neg husable, if_neg hempty, h.start]
      exact h.steps hwalk

theorem directoryAt? (h : t.Keeps t') (hpath : t.directoryAt? path = some q) :
    t'.directoryAt? path = some q := by
  unfold Tree.directoryAt? at hpath ⊢
  split at hpath
  · cases hpath
  · rename_i r hwalk
    split at hpath
    · rename_i hdirectory
      obtain rfl := Option.some.inj hpath
      rw [h.walk hwalk]
      exact if_pos (h.directory r hdirectory)
    · cases hpath

end Keeps

/-! ### Where paths lead -/

/-- A path that leads somewhere is not empty, and each of its names is a step. -/
theorem walk_eq_ok (h : t.walk path = .ok q) :
    path ≠ "" ∧ (Path.names path).foldlM t.step (t.start path) = .ok q := by
  unfold walk at h
  split at h
  · cases h
  · split at h
    · cases h
    · rename_i hempty
      exact ⟨by simpa using hempty, h⟩

/-- A step is taken from a directory only. -/
theorem directory_of_step (h : t.step p name = .ok q) : t.get? p = some .directory := by
  unfold step at h
  split at h
  · cases h
  · cases h
  · assumption

/-- A name that is neither `.` nor `..` leads down. -/
theorem eq_append_of_step (hdot : name ≠ ".") (hdots : name ≠ "..")
    (h : t.step p name = .ok q) : q = p ++ [name] := by
  unfold step at h
  split at h
  · cases h
  · cases h
  · rw [if_neg hdot, if_neg hdots] at h
    split at h
    · cases h
    · exact (Except.ok.inj h).symm

theorem directoryAt?_eq_some_iff :
    t.directoryAt? path = some q ↔ t.walk path = .ok q ∧ t.get? q = some .directory := by
  unfold directoryAt?
  rcases t.walk path with e | r
  · simp
  · simp only [Option.ite_none_right_eq_some, Option.some.injEq, Except.ok.injEq]
    constructor
    · rintro ⟨hr, rfl⟩
      exact ⟨rfl, hr⟩
    · rintro ⟨rfl, hr⟩
      exact ⟨hr, rfl⟩

/-! ### Entries -/

/-- The root is a directory. -/
theorem ne_nil_of_get? (h : t.get? q ≠ some .directory) : q ≠ [] := by
  rintro rfl
  exact h (by simp [get?])

theorem ne_nil_of_get?_eq_none (h : t.get? q = none) : q ≠ [] :=
  ne_nil_of_get? (t := t) (by simp [h])

theorem keeps_put {e : Entry} (hp : t.get? p = none) : t.Keeps (t.put p e) where
  current := rfl
  directory x hx := by
    rw [get?_put (ne_nil_of_get?_eq_none hp), if_neg]
    · exact hx
    · rintro rfl
      exact nomatch hp.symm.trans hx

/-! ### Making directories -/

/-- Directories where nothing stood, and nothing else. -/
structure Grows (t t' : Tree) : Prop where
  current : t'.current = t.current
  get? : ∀ x, t'.get? x = t.get? x ∨ t.get? x = none ∧ t'.get? x = some .directory

namespace Grows

theorem refl (t : Tree) : t.Grows t :=
  ⟨rfl, fun _ => .inl rfl⟩

theorem trans (h : t.Grows t₁) (h' : t₁.Grows t') : t.Grows t' where
  current := h'.current.trans h.current
  get? x := by
    rcases h.get? x with hx | ⟨hnone, hx⟩ <;> rcases h'.get? x with hx' | ⟨hnone', hx'⟩
    · exact .inl (hx'.trans hx)
    · exact .inr ⟨hx.symm.trans hnone', hx'⟩
    · exact .inr ⟨hnone, hx'.trans hx⟩
    · exact nomatch hx.symm.trans hnone'

theorem keeps (h : t.Grows t') : t.Keeps t' where
  current := h.current
  directory x hx := by
    rcases h.get? x with heq | ⟨hnone, -⟩
    · exact heq.trans hx
    · exact nomatch hx.symm.trans hnone

end Grows

theorem grows_put (hp : t.get? p = none) : t.Grows (t.put p .directory) where
  current := rfl
  get? x := by
    rw [get?_put (ne_nil_of_get?_eq_none hp)]
    split
    · rename_i hx
      exact .inr ⟨hx ▸ hp, rfl⟩
    · exact .inl rfl

theorem isDirectory_iff : t.isDirectory p names = true ↔
    ∃ q, names.foldlM t.step p = .ok q ∧ t.get? q = some .directory := by
  unfold isDirectory
  rcases names.foldlM t.step p with e | q <;> simp

/-- A directory that is made is there. -/
theorem makeDirectory_eq_ok (h : t.makeDirectory p names = .ok t') :
    t.Grows t' ∧ t'.isDirectory p names = true := by
  obtain ⟨q, hq, h⟩ := Except.bind_eq_ok_iff.mp h
  split at h
  · cases h
  · rename_i hnone
    rw [Option.not_isSome_iff_eq_none] at hnone
    cases h
    have hgrows := grows_put hnone
    refine ⟨hgrows, isDirectory_iff.mpr ⟨q, hgrows.keeps.steps hq, ?_⟩⟩
    rw [get?_put (ne_nil_of_get?_eq_none hnone), if_pos rfl]

/-- **Making directories only adds directories**, and the one that is asked for is there
unless it fails. -/
theorem makeDirectoriesAt_grows (t : Tree) (p : Place) (back : List String) :
    t.Grows (t.makeDirectoriesAt p back).2 ∧
      ((t.makeDirectoriesAt p back).1 = true → back ≠ [] →
        (t.makeDirectoriesAt p back).2.isDirectory p back.reverse = true) := by
  fun_induction makeDirectoriesAt t p back with
  | case1 => exact ⟨.refl t, fun _ h => absurd rfl h⟩
  | case2 name back names t₁ hmade =>
    obtain ⟨hgrows, hthere⟩ := makeDirectory_eq_ok hmade
    exact ⟨hgrows, fun _ _ => hthere⟩
  | case3 name back names hmissing t₁ habove ih =>
    rw [habove] at ih
    exact ⟨ih.1, nofun⟩
  | case4 name back names hmissing t₁ habove t₂ hmade ih =>
    rw [habove] at ih
    obtain ⟨hgrows, hthere⟩ := makeDirectory_eq_ok hmade
    exact ⟨ih.1.trans hgrows, fun _ _ => hthere⟩
  | case5 name back names hmissing t₁ habove obstacle hobstacle ih =>
    rw [habove] at ih
    exact ⟨ih.1, fun h _ => h⟩
  | case6 name back names obstacle hother hobstacle => exact ⟨.refl t, fun h _ => h⟩

/-- On the way to a directory there are directories. -/
theorem isDirectory_front {front : List String} (h : t.isDirectory p (front ++ names) = true)
    (hnames : names ≠ []) : t.isDirectory p front = true := by
  obtain ⟨q, hsteps, -⟩ := isDirectory_iff.mp h
  rw [List.foldlM_append, Except.bind_eq_ok_iff] at hsteps
  obtain ⟨r, hfront, hrest⟩ := hsteps
  obtain ⟨name, names, rfl⟩ := List.exists_cons_of_ne_nil hnames
  rw [List.foldlM_cons, Except.bind_eq_ok_iff] at hrest
  obtain ⟨_, hstep, -⟩ := hrest
  exact isDirectory_iff.mpr ⟨r, hfront, directory_of_step hstep⟩

/-- The directory above is reached by fewer names. -/
theorem exists_append_above (name : String) (back : List String) :
    ∃ names ≠ [], name :: back = names ++ above (name :: back) := by
  have hsuffix : above (name :: back) <:+ name :: back :=
    (List.dropWhile_suffix _).trans ((List.tail_suffix _).trans (List.dropWhile_suffix _))
  obtain ⟨names, hnames⟩ := hsuffix
  refine ⟨names, ?_, hnames.symm⟩
  rintro rfl
  exact Nat.ne_of_lt (length_above_lt name back) (congrArg List.length hnames)

/-- A directory that cannot be made is not there. -/
theorem makeDirectoriesAt_eq_false (t : Tree) (p : Place) (back : List String)
    (h : (t.makeDirectoriesAt p back).1 = false) :
    (t.makeDirectoriesAt p back).2.isDirectory p back.reverse = false := by
  fun_induction makeDirectoriesAt t p back with
  | case1 => cases h
  | case2 => cases h
  | case3 name back names hmissing t₁ habove ih =>
    -- the one above is not there either
    rw [habove] at ih
    obtain ⟨rest, hrest, hback⟩ := exists_append_above name back
    have hreverse : (name :: back).reverse = (above (name :: back)).reverse ++ rest.reverse := by
      rw [← List.reverse_append, ← hback]
    rw [Bool.eq_false_iff, hreverse]
    intro hdirectory
    have hfront := isDirectory_front hdirectory (by simpa using hrest)
    exact nomatch hfront.symm.trans (ih rfl)
  | case4 => cases h
  | case5 => exact h
  | case6 => exact h

theorem grows_makeDirectories (t : Tree) (path : String) :
    t.Grows (t.makeDirectories path).2 := by
  unfold makeDirectories
  split
  · exact (makeDirectoriesAt_grows _ _ _).1
  · exact .refl t

/-- **A directory that is made is at the end of its path.** -/
theorem exists_directoryAt? (hmade : (t.makeDirectories path).1 = true) (hpath : path ≠ "") :
    ∃ d, (t.makeDirectories path).2.directoryAt? path = some d := by
  have hgrows := t.grows_makeDirectories path
  have hthere : isUsable path = true ∧
      (t.makeDirectories path).2.isDirectory (t.start path) (Path.names path) = true := by
    unfold makeDirectories at hmade ⊢
    split at hmade
    · rename_i husable
      refine ⟨husable, ?_⟩
      rw [if_pos husable]
      by_cases hnames : Path.names path = []
      · -- nothing but slashes: the root
        rw [hnames, start, Path.isAbsolute_of_names_eq_nil hnames hpath]
        exact isDirectory_iff.mpr ⟨[], rfl, by simp [get?]⟩
      · have hback : (Path.names path).reverse ≠ [] := by simpa using hnames
        have h := (makeDirectoriesAt_grows t (t.start path) (Path.names path).reverse).2 hmade hback
        rwa [List.reverse_reverse] at h
    · cases hmade
  obtain ⟨husable, hdirectory⟩ := hthere
  obtain ⟨d, hsteps, hd⟩ := isDirectory_iff.mp hdirectory
  refine ⟨d, directoryAt?_eq_some_iff.mpr ⟨?_, hd⟩⟩
  have hempty : path.isEmpty = false := by simpa using hpath
  rw [walk, husable, hempty, hgrows.keeps.start]
  exact hsteps

/-- **Making a directory fails if and only if it is not there in the end.** -/
theorem makeDirectories_iff (hpath : path ≠ "") : (t.makeDirectories path).1 = true ↔
    ∃ d, (t.makeDirectories path).2.directoryAt? path = some d := by
  refine ⟨fun hmade => exists_directoryAt? hmade hpath, fun ⟨d, hd⟩ => ?_⟩
  by_contra hmade
  rw [Bool.not_eq_true] at hmade
  obtain ⟨hwalk, hdirectory⟩ := directoryAt?_eq_some_iff.mp hd
  have hstart := (t.grows_makeDirectories path).keeps.start path
  have hthere : (t.makeDirectories path).2.isDirectory (t.start path) (Path.names path) = true :=
    isDirectory_iff.mpr ⟨d, hstart ▸ (walk_eq_ok hwalk).2, hdirectory⟩
  unfold makeDirectories at hmade hthere
  split at hmade
  · rename_i husable
    have hnot := makeDirectoriesAt_eq_false _ _ _ hmade
    rw [List.reverse_reverse] at hnot
    rw [if_pos husable, hnot] at hthere
    cases hthere
  · rename_i husable
    rw [walk, Bool.eq_false_iff.mpr husable] at hwalk
    cases hwalk

/-! ### Saving files -/

/-- The place holds the content, and all else is as it was. -/
structure Writes (t t' : Tree) (q : Place) (content : ByteArray) : Prop where
  current : t'.current = t.current
  get? : ∀ x, t'.get? x = if x = q then some (.file content) else t.get? x

/-- Both have the same at every place. -/
structure Same (t t' : Tree) : Prop where
  current : t'.current = t.current
  get? : ∀ x, t'.get? x = t.get? x

theorem Same.refl (t : Tree) : t.Same t :=
  ⟨rfl, fun _ => rfl⟩

theorem Same.symm (h : t.Same t') : t'.Same t :=
  ⟨h.current.symm, fun x => (h.get? x).symm⟩

theorem Same.keeps (h : t.Same t') : t.Keeps t' :=
  ⟨h.current, fun x hx => (h.get? x).trans hx⟩

theorem Writes.keeps {content : ByteArray} (h : t.Writes t' q content)
    (hq : t.get? q ≠ some .directory) : t.Keeps t' where
  current := h.current
  directory x hx := by
    rw [h.get? x, if_neg]
    · exact hx
    · rintro rfl
      exact hq hx

/-- No file that is written becomes a directory. -/
theorem Writes.keeps_back {content : ByteArray} (h : t.Writes t' q content) : t'.Keeps t where
  current := h.current.symm
  directory x hx := by
    rw [h.get? x] at hx
    split at hx
    · cases hx
    · exact hx

theorem mem_of_lookup {es : List (Place × Entry)} {e : Entry} (h : lookup es p = some e) :
    (p, e) ∈ es := by
  induction es with
  | nil => cases h
  | cons f es ih =>
    obtain ⟨q, e'⟩ := f
    rw [lookup] at h
    split at h
    · rename_i hq
      obtain rfl := Option.some.inj h
      exact hq ▸ List.mem_cons_self
    · exact List.mem_cons_of_mem _ (ih h)

theorem length_le_foldl (names : List String) (start : Nat) :
    start ≤ names.foldl (fun n name => n + name.length) start ∧
      ∀ name ∈ names, name.length ≤ names.foldl (fun n name => n + name.length) start := by
  induction names generalizing start with
  | nil => exact ⟨Nat.le_refl _, nofun⟩
  | cons first names ih =>
    obtain ⟨hstart, hnames⟩ := ih (start + first.length)
    rw [List.foldl_cons]
    refine ⟨by omega, fun name hname => ?_⟩
    rcases List.mem_cons.mp hname with rfl | hname
    · omega
    · exact hnames name hname

/-- No entry has the fresh name. -/
theorem get?_freshName (t : Tree) (d : Place) : t.get? (d ++ [t.freshName]) = none := by
  rw [get?, if_neg (by simp)]
  rcases hlookup : lookup t.entries (d ++ [t.freshName]) with - | e
  · rfl
  · have hmem : t.freshName ∈ t.entries.flatMap Prod.fst :=
      List.mem_flatMap.mpr ⟨_, mem_of_lookup hlookup, by simp⟩
    have hle := (length_le_foldl _ 0).2 _ hmem
    unfold freshName at hle
    simp only [String.length_ofList, List.length_append, List.length_replicate] at hle
    have hlong : ".tmp".toList.length = 4 := rfl
    omega

/-- Putting a file where nothing stands leaves the same directories. -/
theorem put_keeps {content : ByteArray} (hp : t.get? p = none) :
    (t.put p (.file content)).Keeps t where
  current := rfl
  directory x hx := by
    rw [get?_put (ne_nil_of_get?_eq_none hp)] at hx
    split at hx
    · cases hx
    · exact hx

/-- **A file that is saved changes the place to which its path leads**, and nothing else. -/
theorem save_eq_ok {content : ByteArray} (h : t.save path content = (.ok (), t')) :
    ∃ q, t.walk path = .ok q ∧ t.get? q ≠ some .directory ∧ t.Writes t' q content := by
  unfold save at h
  split at h
  · cases h
  · rename_i d hd
    have hp := t.get?_freshName d
    have hne := ne_nil_of_get?_eq_none hp
    simp only at h
    split at h
    · rename_i t₁ hmove
      cases h
      obtain ⟨q, hwalk, hmove⟩ := Except.bind_eq_ok_iff.mp hmove
      split at hmove
      · cases hmove
      · rename_i hq
        cases hmove
        -- the new file is no directory, so the path leads where it led
        have hwalk' : t.walk path = .ok q := (put_keeps hp).walk hwalk
        have hq' : t.get? q ≠ some .directory := fun hdirectory =>
          hq ((keeps_put hp).directory q hdirectory)
        refine ⟨q, hwalk', hq', rfl, fun x => ?_⟩
        rw [get?_put (ne_nil_of_get? hq'), get?_erase hne, get?_put hne]
        split
        · rfl
        · split
          · rename_i hx
            rw [hx, hp]
          · rfl
    · cases h

/-- A file can be saved at the end of a path: the directory of the path is there, and
what stands at the end of the path, if anything, is a file. -/
structure Accepts (t : Tree) (path : String) : Prop where
  directory : ∃ d, t.directoryAt? (Path.directory path) = some d
  place : ∃ q, t.walk path = .ok q ∧ t.get? q ≠ some .directory

theorem Same.accepts (h : t.Same t') (hpath : t'.Accepts path) : t.Accepts path where
  directory := by
    obtain ⟨d, hd⟩ := hpath.directory
    exact ⟨d, h.symm.keeps.directoryAt? hd⟩
  place := by
    obtain ⟨q, hwalk, hq⟩ := hpath.place
    exact ⟨q, h.symm.keeps.walk hwalk, fun hq' => hq ((h.get? q).trans hq')⟩

/-- **Saving fails if and only if the path does not accept a file.** -/
theorem save_eq_ok_iff {content : ByteArray} :
    (t.save path content).1 = .ok () ↔ t.Accepts path := by
  constructor
  · intro h
    have hsave : t.save path content = (.ok (), (t.save path content).2) := Prod.ext h rfl
    obtain ⟨q, hwalk, hq, -⟩ := save_eq_ok hsave
    refine ⟨?_, q, hwalk, hq⟩
    unfold save at h
    split at h
    · cases h
    · rename_i d hd
      exact ⟨d, hd⟩
  · rintro ⟨⟨d, hd⟩, q, hwalk, hq⟩
    have hp := t.get?_freshName d
    have hne := ne_nil_of_get?_eq_none hp
    -- the new file beside it is not in the way
    have hwalk' := (keeps_put (e := .file content) hp).walk hwalk
    have hq' : (t.put (d ++ [t.freshName]) (.file content)).get? q ≠ some .directory := by
      rw [get?_put hne]
      split
      · simp
      · exact hq
    have hmove : (t.put (d ++ [t.freshName]) (.file content)).moveFile (d ++ [t.freshName])
        content path = .ok (((t.put (d ++ [t.freshName]) (.file content)).erase
          (d ++ [t.freshName])).put q (.file content)) := by
      rw [moveFile, hwalk']
      exact if_neg hq'
    unfold save
    rw [hd]
    dsimp only
    rw [hmove]

/-- A file that cannot be saved changes nothing. -/
theorem save_eq_error {content : ByteArray} {e : SaveFailure}
    (h : t.save path content = (.error e, t')) : t.Same t' := by
  unfold save at h
  split at h
  · cases h
    exact .refl t
  · rename_i d hd
    have hp := t.get?_freshName d
    have hne := ne_nil_of_get?_eq_none hp
    simp only at h
    split at h
    · cases h
    · cases h
      refine ⟨rfl, fun x => ?_⟩
      rw [get?_erase hne, get?_put hne]
      split
      · rename_i hx
        rw [hx, hp]
      · rfl

end RamlSchema.Tree
