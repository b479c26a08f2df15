/-
RamlSchema/Proofs/Command/Saving.lean

Where a conversion saves its documents.

Nothing is written before the options and the types are read.  Then directories are
made, and documents are saved one after another, each at the place to which its path
leads (`Saves`); no directory is lost on the way, so in the end the path still leads
there, and the place has what was last saved at it.  If the name of a type has no slash,
this place is right in the output directory and no other type has it.  A name with a
slash may lead anywhere.

Main result: `documents_saved`.
-/
import RamlSchema.Command.Run
import RamlSchema.Proofs.Command.Arguments
import RamlSchema.Proofs.Files.Tree
import RamlSchema.Proofs.Normalize.Calls
import RamlSchema.Proofs.Normalize.References

namespace RamlSchema

/-! ### Documents one after another -/

/-- Documents are saved in order, each at the place to which its path leads. -/
inductive Saves (output : String) : Members SchemaNode → Tree → Tree → Prop
  | nil {t t'} : t.Same t' → Saves output [] t t'
  | cons {T n docs q t t₁ t'} :
      t.walk (documentPath output T) = .ok q → t.get? q ≠ some .directory →
      t.Writes t₁ q (documentContent n) → Saves output docs t₁ t' →
      Saves output ((T, n) :: docs) t t'

variable {output : String} {t t' t₁ : Tree} {docs : Members SchemaNode} {T : String}

namespace Saves

theorem keeps (h : Saves output docs t t') : t.Keeps t' := by
  induction h with
  | nil hsame => exact hsame.keeps
  | cons _ hq hwrites _ ih => exact (hwrites.keeps hq).trans ih

theorem keeps_back (h : Saves output docs t t') : t'.Keeps t := by
  induction h with
  | nil hsame => exact hsame.symm.keeps
  | cons _ _ hwrites _ ih => exact ih.trans hwrites.keeps_back

/-- **A place that is not as it was has a document whose path leads there.** -/
theorem get? (h : Saves output docs t t') (x : Place) :
    t'.get? x = t.get? x ∨ ∃ T n, (T, n) ∈ docs ∧
      t'.walk (documentPath output T) = .ok x ∧ t'.get? x = some (.file (documentContent n)) := by
  induction h with
  | nil hsame => exact .inl (hsame.get? x)
  | @cons T n docs q t t₁ t' hwalk hq hwrites hrest ih =>
    rcases ih with hx | ⟨U, m, hU, hpath, hx⟩
    · rw [hwrites.get? x] at hx
      split at hx
      · rename_i heq
        subst heq
        have hkeeps := (hwrites.keeps hq).trans hrest.keeps
        exact .inr ⟨T, n, List.mem_cons_self, hkeeps.walk hwalk, hx⟩
      · exact .inl hx
    · exact .inr ⟨U, m, List.mem_cons_of_mem _ hU, hpath, hx⟩

/-- Where directories are made first, a place that is not as it was may be one of them. -/
theorem get?_of_grows {made : Tree} (hgrows : t.Grows made) (h : Saves output docs made t')
    (x : Place) : t'.get? x = t.get? x ∨
      t.get? x = none ∧ t'.get? x = some .directory ∨
      ∃ T n, (T, n) ∈ docs ∧ t'.walk (documentPath output T) = .ok x ∧
        t'.get? x = some (.file (documentContent n)) := by
  rcases h.get? x with hx | hx
  · rcases hgrows.get? x with hx' | ⟨hnone, hx'⟩
    · exact .inl (hx.trans hx')
    · exact .inr (.inl ⟨hnone, hx.trans hx'⟩)
  · exact .inr (.inr hx)

/-- **Each document is where its path leads**, if no two of the paths lead to one place. -/
theorem holds (h : Saves output docs t t') (hnodup : docs.keys.Nodup)
    (hapart : ∀ T ∈ docs.keys, ∀ U ∈ docs.keys, ∀ q, t'.walk (documentPath output T) = .ok q →
      t'.walk (documentPath output U) = .ok q → T = U) :
    ∀ T n, (T, n) ∈ docs → ∃ q, t'.walk (documentPath output T) = .ok q ∧
      t'.get? q = some (.file (documentContent n)) := by
  induction h with
  | nil _ => exact fun _ _ h => nomatch h
  | @cons T n docs q t t₁ t' hwalk hq hwrites hrest ih =>
    rw [Members.keys, List.map_cons, List.nodup_cons] at hnodup
    intro U m hU
    rcases List.mem_cons.mp hU with heq | hU
    · cases heq
      have hpath := ((hwrites.keeps hq).trans hrest.keeps).walk hwalk
      refine ⟨q, hpath, ?_⟩
      rcases hrest.get? q with hkept | ⟨V, k, hV, hother, -⟩
      · rw [hkept, hwrites.get?, if_pos rfl]
      · -- a later document at this place would have the same name
        have hmem : V ∈ Members.keys docs := List.mem_map.mpr ⟨_, hV, rfl⟩
        have heq := hapart T List.mem_cons_self V (List.mem_cons_of_mem _ hmem) q hpath hother
        exact absurd (heq ▸ hmem) hnodup.1
    · exact ih hnodup.2 (fun V hV W hW =>
        hapart V (List.mem_cons_of_mem _ hV) W (List.mem_cons_of_mem _ hW)) U m hU

end Saves

/-- The first document is saved before the others. -/
theorem run_saveDocuments_cons (output T : String) (n : SchemaNode) (docs : Members SchemaNode)
    (t : Tree) : (saveDocuments output ((T, n) :: docs) : StateM Tree _).run t =
      match t.save (documentPath output T) (documentContent n) with
      | (.ok (), t₁) =>
        let r := (saveDocuments output docs : StateM Tree _).run t₁
        ((documentPath output T :: r.1.1, r.1.2), r.2)
      | (.error .temporary, t₁) =>
        (([], some (.temporary (Path.directory (documentPath output T)))), t₁)
      | (.error .replacement, t₁) => (([], some (.replacement (documentPath output T))), t₁) := by
  have hsave : ∀ path content, (Disk.save path content : StateM Tree _).run t
      = t.save path content := fun _ _ => rfl
  simp only [saveDocuments, saveDocument, StateT.run_bind, hsave]
  rcases t.save (documentPath output T) (documentContent n) with ⟨⟨- | -⟩ | -, t₁⟩ <;> rfl

/-- What is saved is the front of the documents, each of them is told, and all are saved
unless there is a problem.  The first that is not saved cannot be. -/
theorem exists_saves (output : String) (docs : Members SchemaNode) (t : Tree) :
    let run := (saveDocuments output docs : StateM Tree _).run t
    ∃ done rest, docs = done ++ rest ∧ Saves output done t run.2 ∧
      run.1.1 = done.map (fun d => documentPath output d.1) ∧ (run.1.2 = none ↔ rest = []) ∧
      ∀ d ∈ rest.head?, ¬ run.2.Accepts (documentPath output d.1) := by
  induction docs generalizing t with
  | nil => exact ⟨[], [], rfl, .nil (.refl t), rfl, ⟨fun _ => rfl, fun _ => rfl⟩, nofun⟩
  | cons d docs ih =>
    obtain ⟨T, n⟩ := d
    rw [run_saveDocuments_cons]
    rcases hsave : t.save (documentPath output T) (documentContent n) with ⟨e | _, t₁⟩
    · have hsame := Tree.save_eq_error hsave
      have hrefused : ∀ d ∈ ((T, n) :: docs).head?, ¬ t₁.Accepts (documentPath output d.1) := by
        rintro _ ⟨⟩ haccepts
        have hok : (t.save (documentPath output T) (documentContent n)).1 = .ok () :=
          Tree.save_eq_ok_iff.mpr (hsame.accepts haccepts)
        rw [hsave] at hok
        cases hok
      cases e <;> exact ⟨[], _, rfl, .nil hsame, rfl, ⟨nofun, nofun⟩, hrefused⟩
    · obtain ⟨q, hwalk, hq, hwrites⟩ := Tree.save_eq_ok hsave
      obtain ⟨done, rest, rfl, hsaves, htold, hrest⟩ := ih t₁
      exact ⟨(T, n) :: done, rest, rfl, .cons hwalk hq hwrites hsaves, congrArg (_ :: ·) htold, hrest⟩

/-! ### Paths of documents -/

theorem slash_notMem_documentFileName (hslash : '/' ∉ T.toList) :
    '/' ∉ (documentFileName T).toList := by
  simpa [documentFileName] using hslash

theorem ne_documentFileName_of_length_le {name : String} (h : name.length ≤ 4) :
    documentFileName T ≠ name := by
  rintro rfl
  have hfive : ".json".length = 5 := rfl
  rw [documentFileName, String.length_append] at h
  omega

section

variable {d x : Place} (hd : t.directoryAt? output = some d) (hslash : '/' ∉ T.toList)
include hd hslash

/-- **Without a slash in its name, a type has its document right in the directory.** -/
theorem walk_documentPath (hwalk : t.walk (documentPath output T) = .ok x) :
    x = d ++ [documentFileName T] := by
  obtain ⟨hwalkd, -⟩ := Tree.directoryAt?_eq_some_iff.mp hd
  obtain ⟨houtput, hsteps⟩ := Tree.walk_eq_ok hwalkd
  have hslash' := slash_notMem_documentFileName hslash
  have hname : documentFileName T ≠ "" := ne_documentFileName_of_length_le (by decide)
  have hnames : Path.names (documentPath output T) = Path.names output ++ [documentFileName T] :=
    Path.names_join houtput hslash' hname
  have hstart : t.start (documentPath output T) = t.start output := by
    rw [Tree.start, documentPath, Path.isAbsolute_join houtput hslash']
    rfl
  have hall := (Tree.walk_eq_ok hwalk).2
  rw [hnames, hstart, List.foldlM_append, Except.bind_eq_ok_iff] at hall
  obtain ⟨y, hy, hlast⟩ := hall
  obtain rfl := Except.ok.inj (hsteps.symm.trans hy)
  rw [List.foldlM_cons, Except.bind_eq_ok_iff] at hlast
  obtain ⟨z, hstep, hz⟩ := hlast
  obtain rfl := Except.ok.inj hz
  exact Tree.eq_append_of_step (ne_documentFileName_of_length_le (by decide))
    (ne_documentFileName_of_length_le (by decide)) hstep

/-- What is read at the path of a document is what its place holds. -/
theorem read_documentPath {content : ByteArray} (hwalk : t.walk (documentPath output T) = .ok x)
    (hx : t.get? x = some (.file content)) : t.read (documentPath output T) = .ok content := by
  obtain ⟨houtput, -⟩ := Tree.walk_eq_ok (Tree.directoryAt?_eq_some_iff.mp hd).1
  obtain ⟨ds, hds, -⟩ := Path.exists_toList_join houtput (slash_notMem_documentFileName hslash)
  have hends : Path.endsInSlash (documentPath output T) = false := by
    have hlast : (documentPath output T).toList.getLast? = some 'n' := by
      have hjson : ".json".toList = ['.', 'j', 's', 'o', 'n'] := rfl
      have hsplit : (documentPath output T).toList
          = (ds ++ '/' :: T.toList ++ ['.', 'j', 's', 'o']) ++ ['n'] := by
        rw [documentPath, hds, documentFileName, String.toList_append, hjson]
        simp
      rw [hsplit, List.getLast?_concat]
    simp [Path.endsInSlash, hlast]
  simp [Tree.read, Tree.find?, hwalk, hx, hends]

end

/-- Different types have their documents at different places. -/
theorem documents_apart {d : Place} (hd : t.directoryAt? output = some d)
    (hslash : ∀ T ∈ docs.keys, '/' ∉ T.toList) : ∀ T ∈ docs.keys, ∀ U ∈ docs.keys, ∀ x,
      t.walk (documentPath output T) = .ok x → t.walk (documentPath output U) = .ok x → T = U := by
  intro T hT U hU x hwalk hwalk'
  have heq := (walk_documentPath hd (hslash T hT) hwalk).symm.trans
    (walk_documentPath hd (hslash U hU) hwalk')
  exact documentFileName_injective (by simpa using heq)

/-! ### What a conversion reads -/

/-- A step that leaves the tree as it is. -/
def Reads {α : Type} (x : StateM Tree α) : Prop :=
  ∀ t, (x.run t).2 = t

namespace Reads

variable {α β : Type}

theorem pure (a : α) : Reads (Pure.pure a) :=
  fun _ => rfl

theorem read (path : String) : Reads (Disk.read path) :=
  fun _ => rfl

theorem bind {x : StateM Tree α} {f : α → StateM Tree β} (hx : Reads x) (hf : ∀ a, Reads (f a)) :
    Reads (x >>= f) :=
  fun t => (hf _ _).trans (hx t)

theorem readText (path : String) : Reads (readText path) := by
  refine (read path).bind fun r => ?_
  rcases r with e | bytes
  · exact .pure _
  · dsimp only
    split <;> exact .pure _

theorem readConfig (path : String) : Reads (readConfig path) := by
  refine (read path).bind fun r => ?_
  rcases r with ⟨- | - | - | -⟩ | bytes <;> exact .pure _

theorem readOptions (a : Arguments) : Reads (readOptions a) := by
  unfold RamlSchema.readOptions
  split
  · exact .pure _
  · exact (readConfig _).bind fun _ => .pure _

theorem ofFile (path : String) : Reads (Loading.ofFile path) := by
  refine (readText path).bind fun r => ?_
  rcases r with cause | text <;> exact .pure _

end Reads

theorem run_bind {α β : Type} {x : StateM Tree α} {f : α → StateM Tree β} {a : α}
    (h : x.run t = (a, t')) : (x >>= f).run t = (f a).run t' := by
  rw [StateT.run_bind, h]
  rfl

/-- What there is to be saved, if the options and the types can be read. -/
def Arguments.outcome? (a : Arguments) (t : Tree) : Option Outcome :=
  match ((readOptions a : StateM Tree _).run t).1,
      ((Loading.ofFile a.file : StateM Tree _).run t).1.result with
  | .ok options, .ok g => some (normalize g options)
  | _, _ => none

/-- A conversion reads its options, then its types, and saves what comes of them. -/
theorem run_convert (a : Arguments) (t : Tree) : (convert a : StateM Tree _).run t =
    match ((readOptions a : StateM Tree _).run t).1 with
    | .error p => ({ problem := some p }, t)
    | .ok options =>
      let l := ((Loading.ofFile a.file : StateM Tree _).run t).1
      match l.result with
      | .error e => ({ problem := some (.load a.file e), trace := l.trace }, t)
      | .ok g =>
        let r := normalize g options
        let s := (saveOutcome a.output g.size r : StateM Tree _).run t
        ({ s.1 with trace := l.trace ++ r.trace }, s.2) := by
  rcases hoptions : (readOptions a : StateM Tree _).run t with ⟨e | options, t₁⟩
  · obtain rfl : t₁ = t := by simpa [hoptions] using Reads.readOptions a t
    rw [convert, run_bind hoptions]
    rfl
  · obtain rfl : t₁ = t := by simpa [hoptions] using Reads.readOptions a t
    rcases hfile : (Loading.ofFile a.file : StateM Tree _).run t₁ with ⟨⟨e | g, trace⟩, t₂⟩
    all_goals
      obtain rfl : t₂ = t₁ := by simpa [hfile] using Reads.ofFile a.file t₁
      rw [convert, run_bind hoptions]
      simp only [run_bind hfile]
      rfl

theorem Arguments.outcome?_eq_none_iff {a : Arguments} : a.outcome? t = none ↔
    (∃ e, ((readOptions a : StateM Tree _).run t).1 = .error e) ∨
      ∃ e, ((Loading.ofFile a.file : StateM Tree _).run t).1.result = .error e := by
  unfold Arguments.outcome?
  rcases ((readOptions a : StateM Tree _).run t).1 with e | options <;>
    rcases ((Loading.ofFile a.file : StateM Tree _).run t).1.result with e' | g <;> simp

theorem Arguments.outcome?_eq_some_iff {a : Arguments} {r : Outcome} : a.outcome? t = some r ↔
    ∃ options g, ((readOptions a : StateM Tree _).run t).1 = .ok options ∧
      ((Loading.ofFile a.file : StateM Tree _).run t).1.result = .ok g ∧
      normalize g options = r := by
  unfold Arguments.outcome?
  rcases ((readOptions a : StateM Tree _).run t).1 with e | options <;>
    rcases ((Loading.ofFile a.file : StateM Tree _).run t).1.result with e' | g <;> simp

/-- Without anything to be saved, there is a problem and the tree is as it was. -/
theorem run_convert_of_none {a : Arguments} (h : a.outcome? t = none) :
    ((convert a : StateM Tree _).run t).2 = t ∧ ((convert a : StateM Tree _).run t).1.saved = [] ∧
      ((convert a : StateM Tree _).run t).1.problem.isSome = true := by
  rw [run_convert]
  unfold Arguments.outcome? at h
  rcases hoptions : ((readOptions a : StateM Tree _).run t).1 with e | options
  · exact ⟨rfl, rfl, rfl⟩
  · rcases hg : ((Loading.ofFile a.file : StateM Tree _).run t).1.result with e | g
    · simp [hg]
    · simp [hoptions, hg] at h

/-- A conversion saves what there is to be saved. -/
theorem run_convert_of_some {a : Arguments} {r : Outcome} (h : a.outcome? t = some r) :
    ∃ total,
      ((convert a : StateM Tree _).run t).2
        = ((saveOutcome a.output total r : StateM Tree _).run t).2 ∧
      ((convert a : StateM Tree _).run t).1.problem
        = ((saveOutcome a.output total r : StateM Tree _).run t).1.problem := by
  obtain ⟨options, g, hoptions, hg, rfl⟩ := Arguments.outcome?_eq_some_iff.mp h
  rw [run_convert]
  simp only [hoptions, hg]
  exact ⟨_, rfl, rfl⟩

/-! ### What a conversion saves -/

/-- Directories are made, and then documents are saved, all of them unless there is a
problem; without the directories, none is. -/
inductive Fills (output : String) (docs : Members SchemaNode) (problem : Option Problem)
    (t t' : Tree) : Prop
  | intro {made : Tree} {done rest : Members SchemaNode} (grows : t.Grows made)
      (split : docs = done ++ rest) (saves : Saves output done made t')
      (complete : problem = none → rest = [])
      (directory : problem = none ∨ done ≠ [] → output ≠ "" →
        ∃ d, made.directoryAt? output = some d) : Fills output docs problem t t'

/-- The report of an outcome of `total` types, after its documents have been saved up to
the first problem. -/
def Outcome.report (r : Outcome) (total : Nat) : List String × Option Problem → Report
  | (saved, some p) => { saved, problem := some p }
  | (saved, none) =>
    if r.failures.isEmpty then { saved }
    else { saved, failures := r.failures, problem := some (.failures r.failures.length total) }

theorem Outcome.saved_report (r : Outcome) (total : Nat) (s : List String × Option Problem) :
    (r.report total s).saved = s.1 := by
  rcases s with ⟨saved, - | p⟩
  · by_cases h : r.failures = [] <;> simp [report, h]
  · rfl

theorem Outcome.problem_report_iff (r : Outcome) (total : Nat) (s : List String × Option Problem) :
    (r.report total s).problem = none ↔ s.2 = none ∧ r.failures = [] := by
  rcases s with ⟨saved, - | p⟩
  · by_cases h : r.failures = [] <;> simp [report, h]
  · simp [report]

/-- Directories are made, and then documents are saved. -/
theorem run_saveOutcome (output : String) (total : Nat) (r : Outcome) (t : Tree) :
    (saveOutcome output total r : StateM Tree _).run t =
      match t.makeDirectories output with
      | (false, t₁) => ({ problem := some (.makeOutput output) }, t₁)
      | (true, t₁) =>
        let s := (saveDocuments output r.documents : StateM Tree _).run t₁
        (r.report total s.1, s.2) := by
  have hmake : (Disk.makeDirectories output : StateM Tree _).run t = t.makeDirectories output := rfl
  rcases hmade : t.makeDirectories output with ⟨- | -, t₁⟩
  all_goals
    rw [hmade] at hmake
    rw [saveOutcome, run_bind hmake]
  · rfl
  · rcases hrun : (saveDocuments output r.documents : StateM Tree _).run t₁ with ⟨⟨saved, - | p⟩, t₂⟩
    all_goals
      rw [if_pos rfl, run_bind hrun]
      simp only [hrun, Outcome.report]
    · split <;> rfl
    · rfl

theorem saveOutcome_fills (output : String) (total : Nat) (r : Outcome) (t : Tree) :
    Fills output r.documents ((saveOutcome output total r : StateM Tree _).run t).1.problem t
      ((saveOutcome output total r : StateM Tree _).run t).2 := by
  have hgrows := t.grows_makeDirectories output
  rw [run_saveOutcome]
  rcases hmade : t.makeDirectories output with ⟨- | -, t₁⟩ <;> rw [hmade] at hgrows
  · exact .intro hgrows rfl (.nil (.refl t₁)) nofun fun h => h.elim nofun (absurd rfl)
  · have hdirectory : output ≠ "" → ∃ d, t₁.directoryAt? output = some d := fun houtput => by
      have h := Tree.exists_directoryAt? (t := t) (congrArg Prod.fst hmade) houtput
      rwa [hmade] at h
    obtain ⟨done, rest, hsplit, hsaves, -, hcomplete, -⟩ := exists_saves output r.documents t₁
    refine .intro hgrows hsplit hsaves (fun hproblem => ?_) fun _ => hdirectory
    exact hcomplete.mp ((r.problem_report_iff total _).mp hproblem).1

namespace Fills

variable {problem : Option Problem} (h : Fills output docs problem t t')
include h

/-- **What is not as it was** is a directory that has been made, or a place to which the
path of a document leads, with what the document says. -/
theorem get? (x : Place) : t'.get? x = t.get? x ∨
    t.get? x = none ∧ t'.get? x = some .directory ∨
    ∃ T n, (T, n) ∈ docs ∧ t'.walk (documentPath output T) = .ok x ∧
      t'.get? x = some (.file (documentContent n)) := by
  obtain ⟨hgrows, rfl, hsaves, -, -⟩ := h
  refine (hsaves.get?_of_grows hgrows x).imp_right (.imp_right fun ⟨T, n, hT, hx⟩ => ?_)
  exact ⟨T, n, List.mem_append_left _ hT, hx⟩

/-! ### Names without slashes -/

section

variable (houtput : output ≠ "") (hslash : ∀ T ∈ docs.keys, '/' ∉ T.toList)
include houtput hslash

/-- **Files are changed right in the output directory only.** -/
theorem confined (x : Place) : t'.get? x = t.get? x ∨
    t.get? x = none ∧ t'.get? x = some .directory ∨
    ∃ d T n, t'.directoryAt? output = some d ∧ (T, n) ∈ docs ∧ x = d ++ [documentFileName T] ∧
      t'.get? x = some (.file (documentContent n)) := by
  obtain @⟨made, done, rest, hgrows, rfl, hsaves, -, hdirectory⟩ := h
  rcases hsaves.get?_of_grows hgrows x with hx | hx | ⟨T, n, hT, hwalk, hx⟩
  · exact .inl hx
  · exact .inr (.inl hx)
  · obtain ⟨d, hmade⟩ := hdirectory (.inr (List.ne_nil_of_mem hT)) houtput
    have hd := hsaves.keeps.directoryAt? hmade
    have hmem : (T, n) ∈ done ++ rest := List.mem_append_left rest hT
    have hplace := walk_documentPath hd (hslash T (List.mem_map.mpr ⟨_, hmem, rfl⟩)) hwalk
    exact .inr (.inr ⟨d, T, n, hd, hmem, hplace, hx⟩)

/-- **Without a problem, each document can be read at its path.** -/
theorem complete (hnodup : docs.keys.Nodup) (hproblem : problem = none) :
    ∃ d, t'.directoryAt? output = some d ∧ ∀ T n, (T, n) ∈ docs →
      t'.get? (d ++ [documentFileName T]) = some (.file (documentContent n)) ∧
      t'.read (documentPath output T) = .ok (documentContent n) := by
  obtain ⟨-, rfl, hsaves, hrest, hdirectory⟩ := h
  obtain rfl := hrest hproblem
  rw [List.append_nil] at hnodup hslash ⊢
  obtain ⟨d, hmade⟩ := hdirectory (.inl hproblem) houtput
  have hd := hsaves.keeps.directoryAt? hmade
  refine ⟨d, hd, fun T n hT => ?_⟩
  have hT' := hslash T (List.mem_map.mpr ⟨_, hT, rfl⟩)
  obtain ⟨q, hwalk, hq⟩ := hsaves.holds hnodup (documents_apart hd hslash) T n hT
  exact ⟨walk_documentPath hd hT' hwalk ▸ hq, read_documentPath hd hT' hwalk hq⟩

end

end Fills

/-- A run whose arguments are accepted is a conversion, told by its report. -/
theorem run_runCommand_eq {arguments : List String} {a : Arguments}
    (ha : Arguments.read arguments = .ok a) (t : Tree) :
    (runCommand arguments : StateM Tree Reply).run t =
      let c := (convert a : StateM Tree _).run t
      ({ exitStatus := c.1.exitStatus
         outputLines := c.1.outputLines
         logLines := (logged a.verbose c.1.trace).map Event.logLine
         errorLines := c.1.errorLines }, c.2) := by
  rcases hrun : (convert a : StateM Tree _).run t with ⟨report, t'⟩
  rw [runCommand, ha]
  simp only [run_bind hrun]
  rfl

theorem run_runCommand {arguments : List String} {a : Arguments}
    (ha : Arguments.read arguments = .ok a) (t : Tree) :
    ((runCommand arguments : StateM Tree Reply).run t).2 = ((convert a : StateM Tree _).run t).2 ∧
      ((runCommand arguments : StateM Tree Reply).run t).1.exitStatus
        = ((convert a : StateM Tree _).run t).1.exitStatus := by
  rw [run_runCommand_eq ha]
  exact ⟨rfl, rfl⟩

theorem Arguments.nodup_documents {a : Arguments} {t : Tree} {r : Outcome}
    (hr : a.outcome? t = some r) : r.documents.keys.Nodup := by
  obtain ⟨options, g, -, -, rfl⟩ := Arguments.outcome?_eq_some_iff.mp hr
  exact RamlSchema.nodup_documents _ _ _

/-- **The documents of a run are saved in the output directory, one file for each.**
What a run changes is a directory that has been made, or a place to which the path of a
document leads, with what the document says.  If no name of a document has a slash, all
of these places are right in the output directory, no two documents have the same one,
and after a run with exit status zero each of them holds its document. -/
theorem documents_saved {arguments : List String} {a : Arguments} {r : Outcome} {t : Tree}
    (ha : Arguments.read arguments = .ok a) (hr : a.outcome? t = some r) :
    let run := (runCommand arguments : StateM Tree Reply).run t
    (∀ x, run.2.get? x = t.get? x ∨ t.get? x = none ∧ run.2.get? x = some .directory ∨
      ∃ T n, (T, n) ∈ r.documents ∧ run.2.walk (documentPath a.output T) = .ok x ∧
        run.2.get? x = some (.file (documentContent n))) ∧
    ((∀ T ∈ r.documents.keys, '/' ∉ T.toList) →
      (∀ x, run.2.get? x = t.get? x ∨ t.get? x = none ∧ run.2.get? x = some .directory ∨
        ∃ d T n, run.2.directoryAt? a.output = some d ∧ (T, n) ∈ r.documents ∧
          x = d ++ [documentFileName T] ∧ run.2.get? x = some (.file (documentContent n))) ∧
      (∀ d, run.2.directoryAt? a.output = some d → ∀ T ∈ r.documents.keys,
        ∀ U ∈ r.documents.keys, ∀ x, run.2.walk (documentPath a.output T) = .ok x →
          run.2.walk (documentPath a.output U) = .ok x → T = U) ∧
      (run.1.exitStatus = 0 → ∃ d, run.2.directoryAt? a.output = some d ∧
        ∀ T n, (T, n) ∈ r.documents →
          run.2.get? (d ++ [documentFileName T]) = some (.file (documentContent n)) ∧
          run.2.read (documentPath a.output T) = .ok (documentContent n))) := by
  intro run
  have houtput := Arguments.output_ne_empty ha
  obtain ⟨total, htree, hproblem⟩ := run_convert_of_some hr
  have hrun := run_runCommand ha t
  have hfills := saveOutcome_fills a.output total r t
  rw [← htree, ← hproblem, ← hrun.1] at hfills
  refine ⟨hfills.get?, fun hslash => ⟨hfills.confined houtput hslash, ?_, fun hexit => ?_⟩⟩
  · exact fun d hd => documents_apart hd hslash
  · rw [hrun.2, Report.exitStatus_eq_zero_iff] at hexit
    exact hfills.complete houtput hslash (Arguments.nodup_documents hr) hexit

/-- A tree with a file of types. -/
def typesTree (text : String) : Tree :=
  { entries := [(["types.json"], .file text.toUTF8)] }

/-- Two types in a file. -/
def cardsTree : Tree :=
  typesTree "\x7b\"Card\": \x7b\"type\": \"string\"\x7d, \"Deck\": \x7b\"type\": \"integer\"\x7d\x7d"

theorem documents_saved_cards :
    let run := (runCommand ["-f", "types.json"] : StateM Tree Reply).run cardsTree
    run.1.exitStatus = 0 ∧ ∃ d n, run.2.directoryAt? "out" = some d ∧
      run.2.get? (d ++ [documentFileName "Card"]) = some (.file (documentContent n)) := by
  have ha : Arguments.read ["-f", "types.json"] = .ok { file := "types.json" } := by
    decide +kernel
  have hkeys : (Arguments.outcome? { file := "types.json" } cardsTree).map
      (fun r => r.documents.keys) = some ["Card", "Deck"] := by decide +kernel
  obtain ⟨r, hr, hkeys⟩ := Option.map_eq_some_iff.mp hkeys
  have hslash : ∀ T ∈ r.documents.keys, '/' ∉ T.toList := by
    rw [hkeys]
    decide
  obtain ⟨-, h⟩ := documents_saved ha hr
  obtain ⟨-, -, hexit⟩ := h hslash
  have hzero : ((runCommand ["-f", "types.json"] : StateM Tree Reply).run cardsTree).1.exitStatus
      = 0 := by decide +kernel
  obtain ⟨d, hd, hall⟩ := hexit hzero
  have hmem : "Card" ∈ r.documents.keys := by
    rw [hkeys]
    exact List.mem_cons_self
  obtain ⟨n, hn⟩ := Members.exists_get?_of_mem_keys hmem
  exact ⟨hzero, d, n, hd, (hall "Card" n (Members.mem_of_get? hn)).1⟩

/-! ### Names with slashes -/

/-- The first name leads out of the output directory, and the others to one place. -/
def strayTree : Tree :=
  typesTree ("\x7b\"../x\": \x7b\"type\": \"string\"\x7d, \"a\": \x7b\"type\": \"string\"\x7d, "
    ++ "\"./a\": \x7b\"type\": \"integer\"\x7d\x7d")

/-- All three are saved without a problem: one beside the output directory, and two in
the same file. -/
theorem documents_stray :
    let run := (runCommand ["-f", "types.json"] : StateM Tree Reply).run strayTree
    run.1.exitStatus = 0 ∧ run.2.directoryAt? "out" = some ["out"] ∧
      run.1.outputLines = ["Saved out/../x.json", "Saved out/a.json", "Saved out/./a.json"] ∧
      strayTree.get? ["x.json"] = none ∧
      run.2.get? ["x.json"] = some (.file (documentContent
        { SchemaNode.ofType "string" with schema := some draft04Uri })) ∧
      run.2.walk (documentPath "out" "a") = .ok ["out", "a.json"] ∧
      run.2.walk (documentPath "out" "./a") = .ok ["out", "a.json"] := by
  decide +kernel

end RamlSchema
