/-
RamlSchema/Proofs/Except.lean

Computations that may fail.

What it is for a sequence of two steps to give a result, with a state that the steps
share (`exec`) or without one, and for the same step taken with each of some things; and
how the results of two computations are compared, of which either both fail or neither
does (`Except.Rel`).

Main results: `mapM_eq_ok_iff`; and `mapM_related` and `mapM_perm`, for the same step with
things that are related, or in another order.
-/
import Mathlib.Data.List.Forall2
import Mathlib.Logic.Relation

namespace RamlSchema

variable {ε α β : Type}

/-! ### One step after the other -/

namespace Except

theorem bind_eq_ok_iff {x : Except ε α} {f : α → Except ε β} {b : β} :
    x >>= f = .ok b ↔ ∃ a, x = .ok a ∧ f a = .ok b := by
  cases x with
  | error e => exact ⟨nofun, fun ⟨_, h, _⟩ => nomatch h⟩
  | ok a => exact ⟨fun h => ⟨a, rfl, h⟩, fun ⟨_, h, hf⟩ => Except.ok.inj h ▸ hf⟩

theorem bind_eq_error_iff {x : Except ε α} {f : α → Except ε β} {e : ε} :
    x >>= f = .error e ↔ x = .error e ∨ ∃ a, x = .ok a ∧ f a = .error e := by
  cases x <;> simp [bind, Except.bind]

theorem map_eq_ok_iff {x : Except ε α} {f : α → β} {b : β} :
    x.map f = .ok b ↔ ∃ a, x = .ok a ∧ f a = b := by
  cases x <;> simp [Except.map]

theorem map_eq_error_iff {x : Except ε α} {f : α → β} {e : ε} :
    x.map f = .error e ↔ x = .error e := by
  cases x <;> simp [Except.map]

theorem exists_map_eq_ok_iff {x : Except ε α} {f : α → β} :
    (∃ b, x.map f = .ok b) ↔ ∃ a, x = .ok a := by
  cases x <;> simp [Except.map]

end Except

/-! ### Steps with a state -/

section

variable {σ : Type}

/-- Runs a computation with a state: its result, and the state behind it. -/
def exec (x : ExceptT ε (StateM σ) α) (s : σ) : Except ε α × σ :=
  x.run.run s

@[simp] theorem exec_pure (a : α) (s : σ) :
    exec (pure a : ExceptT ε (StateM σ) α) s = (.ok a, s) := rfl

@[simp] theorem exec_throw (e : ε) (s : σ) :
    exec (throw e : ExceptT ε (StateM σ) α) s = (.error e, s) := rfl

@[simp] theorem exec_get (s : σ) : exec (get : ExceptT ε (StateM σ) σ) s = (.ok s, s) := rfl

@[simp] theorem exec_modify (f : σ → σ) (s : σ) :
    exec (modify f : ExceptT ε (StateM σ) PUnit) s = (.ok (), f s) := rfl

@[simp] theorem exec_mk_pure (r : Except ε α) (s : σ) :
    exec (ExceptT.mk (pure r) : ExceptT ε (StateM σ) α) s = (r, s) := rfl

theorem exec_bind (x : ExceptT ε (StateM σ) α) (f : α → ExceptT ε (StateM σ) β) (s : σ) :
    exec (x >>= f) s =
      match exec x s with
      | (.ok a, s') => exec (f a) s'
      | (.error e, s') => (.error e, s') := by
  rcases h : exec x s with ⟨e | a, s'⟩
  all_goals
    show StateT.bind x.run (ExceptT.bindCont f) s = _
    simp only [exec, StateT.run] at h
    simp only [StateT.bind, h]
    rfl

theorem exec_map (f : α → β) (x : ExceptT ε (StateM σ) α) (s : σ) :
    exec (f <$> x) s = ((exec x s).1.map f, (exec x s).2) := by
  rw [map_eq_pure_bind, exec_bind]
  rcases exec x s with ⟨e | a, s'⟩ <;> rfl

theorem exec_bind_eq_ok_iff {x : ExceptT ε (StateM σ) α} {f : α → ExceptT ε (StateM σ) β} {b : β}
    {s s' : σ} : exec (x >>= f) s = (.ok b, s')
      ↔ ∃ a s₁, exec x s = (.ok a, s₁) ∧ exec (f a) s₁ = (.ok b, s') := by
  rw [exec_bind]
  rcases exec x s with ⟨e | a, s₁⟩
  · exact ⟨nofun, nofun⟩
  · exact ⟨fun h => ⟨a, s₁, rfl, h⟩, fun ⟨_, _, h, hf⟩ => by cases h; exact hf⟩

end

/-! ### The same step with each of some things -/

/-- All are read if each is, and what is read of one does not depend on the others. -/
theorem mapM_eq_ok_iff {f : α → Except ε β} {xs : List α} {ys : List β} :
    xs.mapM f = .ok ys ↔ List.Forall₂ (fun x y => f x = .ok y) xs ys := by
  induction xs generalizing ys with
  | nil =>
    rw [List.mapM_nil, List.forall₂_nil_left_iff]
    exact ⟨fun h => (Except.ok.inj h).symm, fun h => congrArg Except.ok h.symm⟩
  | cons x xs ih =>
    rw [List.mapM_cons, List.forall₂_cons_left_iff, Except.bind_eq_ok_iff]
    constructor
    · rintro ⟨y, hy, h⟩
      obtain ⟨ys', hys', h⟩ := Except.bind_eq_ok_iff.mp h
      exact ⟨y, ys', hy, ih.mp hys', (Except.ok.inj h).symm⟩
    · rintro ⟨y, ys', hy, hys', rfl⟩
      exact ⟨y, hy, Except.bind_eq_ok_iff.mpr ⟨ys', ih.mpr hys', rfl⟩⟩

theorem exists_mapM_eq_ok_iff {f : α → Except ε β} {xs : List α} :
    (∃ ys, xs.mapM f = .ok ys) ↔ ∀ x ∈ xs, ∃ y, f x = .ok y := by
  simp only [mapM_eq_ok_iff]
  constructor
  · rintro ⟨ys, h⟩ x hx
    induction h with
    | nil => cases hx
    | cons hy _ ih =>
      rcases List.mem_cons.mp hx with rfl | hx
      · exact ⟨_, hy⟩
      · exact ih hx
  · intro h
    induction xs with
    | nil => exact ⟨[], .nil⟩
    | cons x xs ih =>
      obtain ⟨y, hy⟩ := h x List.mem_cons_self
      obtain ⟨ys, hys⟩ := ih fun x' hx' => h x' (List.mem_cons_of_mem _ hx')
      exact ⟨y :: ys, .cons hy hys⟩

theorem mapM_eq_ok_congr {f f' : α → Except ε β} {xs : List α} {ys : List β}
    (h : ∀ x ∈ xs, ∀ y, f x = .ok y ↔ f' x = .ok y) : xs.mapM f = .ok ys ↔ xs.mapM f' = .ok ys := by
  rw [mapM_eq_ok_iff, mapM_eq_ok_iff]
  induction xs generalizing ys with
  | nil => rw [List.forall₂_nil_left_iff, List.forall₂_nil_left_iff]
  | cons x xs ih =>
    rw [List.forall₂_cons_left_iff, List.forall₂_cons_left_iff]
    have hrest : ∀ y' ∈ xs, ∀ y, f y' = .ok y ↔ f' y' = .ok y :=
      fun y' hy' => h y' (List.mem_cons_of_mem _ hy')
    simp only [h x List.mem_cons_self, ih hrest]

/-- Whatever was read was read of one of them. -/
theorem exists_of_mem_mapM {f : α → Except ε β} {xs : List α} {ys : List β}
    (h : xs.mapM f = .ok ys) {y : β} (hy : y ∈ ys) : ∃ x ∈ xs, f x = .ok y := by
  rw [mapM_eq_ok_iff] at h
  induction h with
  | nil => cases hy
  | @cons x y' xs _ hxy _ ih =>
    rcases List.mem_cons.mp hy with rfl | hy
    · exact ⟨x, List.mem_cons_self, hxy⟩
    · obtain ⟨x', hx', h⟩ := ih hy
      exact ⟨x', List.mem_cons_of_mem _ hx', h⟩

/-! ### Two results -/

variable {γ δ : Type}

namespace Except

/-- Two results that are both errors, or both values, and these are related. -/
inductive Rel (R : α → β → Prop) : Except ε α → Except ε β → Prop
  | ok {a b} : R a b → Rel R (.ok a) (.ok b)
  | error {e e'} : Rel R (.error e) (.error e')

section

variable {R : α → β → Prop} {S : γ → δ → Prop} {x : Except ε α} {y : Except ε β}

theorem Rel.map {f : α → γ} {g : β → δ} (h : Rel R x y)
    (hfg : ∀ a b, x = .ok a → y = .ok b → R a b → S (f a) (g b)) :
    Rel S (x.map f) (y.map g) := by
  cases h with
  | ok h => exact .ok (hfg _ _ rfl rfl h)
  | error => exact .error

theorem Rel.bind {f : α → Except ε γ} {g : β → Except ε δ} (h : Rel R x y)
    (hfg : ∀ a b, R a b → Rel S (f a) (g b)) : Rel S (x >>= f) (y >>= g) := by
  cases h with
  | ok h => exact hfg _ _ h
  | error => exact .error

theorem Rel.trans {T : β → γ → Prop} {U : α → γ → Prop} {z : Except ε γ} (h : Rel R x y)
    (h' : Rel T y z) (hU : ∀ a b c, R a b → T b c → U a c) : Rel U x z := by
  cases h with
  | ok h =>
    cases h' with
    | ok h' => exact .ok (hU _ _ _ h h')
  | error =>
    cases h'
    exact .error

end

end Except

/-- What is read of things that are related is related. -/
theorem mapM_related {S : γ → δ → Prop} {f : α → Except ε γ} {g : β → Except ε δ} {xs : List α}
    {ys : List β} (h : List.Forall₂ (fun x y => Except.Rel S (f x) (g y)) xs ys) :
    Except.Rel (List.Forall₂ S) (xs.mapM f) (ys.mapM g) := by
  induction h with
  | nil => exact .ok .nil
  | cons hxy _ ih =>
    rw [List.mapM_cons, List.mapM_cons]
    exact hxy.bind fun _ _ hab => ih.bind fun _ _ hrest => .ok (.cons hab hrest)

/-- What is read in another order is the same in another order. -/
theorem mapM_perm {f : α → Except ε β} {xs ys : List α} (h : xs.Perm ys) :
    Except.Rel List.Perm (xs.mapM f) (ys.mapM f) := by
  induction h with
  | nil => exact .ok .nil
  | cons x _ ih =>
    rw [List.mapM_cons, List.mapM_cons]
    rcases f x with e | b
    · exact .error
    · exact ih.bind fun _ _ hrest => .ok (.cons b hrest)
  | swap x y xs =>
    simp only [List.mapM_cons]
    rcases f x with e | b <;> rcases f y with e' | c <;> rcases xs.mapM f with e'' | bs
    case ok.ok.ok => exact .ok (.swap b c bs)
    all_goals exact .error
  | trans _ _ ih ih' => exact ih.trans ih' fun _ _ _ => .trans

end RamlSchema
