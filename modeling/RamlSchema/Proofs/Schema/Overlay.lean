/-
RamlSchema/Proofs/Schema/Overlay.lean

Laws of laying keywords over a schema.

Where the keys of the node in the middle are distinct, laying the keywords of a
site over those of another site, and the result over a schema, is laying first
the one and then the other over the schema (`overlay_assoc`).  And where the
nodes right below two schemas are replaced one by one, they are replaced right
below the one laid over the other (`Replaces.overlay`).
-/
import RamlSchema.Proofs.Members
import RamlSchema.Schema.Overlay
import Mathlib.Data.List.Forall2

namespace RamlSchema

/-- Two values with the same label are related. -/
def Labelled {κ α β : Type} (R : α → β → Prop) (p : κ × α) (q : κ × β) : Prop :=
  p.1 = q.1 ∧ R p.2 q.2

namespace Members

variable {α : Type}

/-! ### Writing list after list -/

theorem nodup_keys_nil : (keys ([] : Members α)).Nodup :=
  List.nodup_nil

@[simp] theorem insert_insert_self (ms : Members α) (k : String) (v w : α) :
    (ms.insert k v).insert k w = ms.insert k w := by
  induction ms with
  | nil => simp [insert]
  | cons e ms ih =>
    by_cases he : e.1 = k
    · simp [insert, he]
    · simp [insert, he, ih]

/-- Once a key is present, writing it can be done before writing another one. -/
theorem insert_comm {ms : Members α} {k k' : String} (hk : k ∈ ms.keys) (hne : k ≠ k') (v w : α) :
    (ms.insert k' w).insert k v = (ms.insert k v).insert k' w := by
  induction ms with
  | nil => simp [keys] at hk
  | cons e ms ih =>
    by_cases he : e.1 = k
    · -- written in place, whatever comes after
      subst he
      simp [insert, hne]
    · have hms : k ∈ keys ms := by
        rcases List.mem_cons.mp hk with h | h
        · exact absurd h.symm he
        · exact h
      by_cases he' : e.1 = k'
      · subst he'
        simp [insert, he]
      · simp [insert, he, he', ih hms]

theorem mem_keys_insert_self (ms : Members α) (k : String) (v : α) : k ∈ (ms.insert k v).keys :=
  mem_keys_of_get? (get?_insert_self ms k v)

theorem mem_keys_insert_of_mem {ms : Members α} {k : String} (h : k ∈ ms.keys) (k' : String)
    (v : α) : k ∈ (ms.insert k' v).keys := by
  rw [keys_insert]
  split
  · exact h
  · exact List.mem_append_left _ h

/-- A key that is present and not among those written later can be written first. -/
theorem insert_insertMany {ms entries : Members α} {k : String} (hk : k ∈ ms.keys)
    (hentries : k ∉ entries.keys) (v : α) :
    (ms.insertMany entries).insert k v = (ms.insert k v).insertMany entries := by
  induction entries generalizing ms with
  | nil => rfl
  | cons e es ih =>
    have hne : k ≠ e.1 := fun h => hentries (h ▸ List.mem_cons_self)
    have hes : k ∉ keys es := fun h => hentries (List.mem_cons_of_mem _ h)
    show ((ms.insert e.1 e.2).insertMany es).insert k v
      = ((ms.insert k v).insert e.1 e.2).insertMany es
    rw [ih (mem_keys_insert_of_mem hk e.1 e.2) hes, insert_comm hk hne]

/-- Writing a key after a list is writing the list with the key written into it. -/
theorem insert_insertMany_eq (ms : Members α) {entries : Members α} (h : entries.keys.Nodup)
    (k : String) (v : α) :
    (ms.insertMany entries).insert k v = ms.insertMany (entries.insert k v) := by
  induction entries generalizing ms with
  | nil => rfl
  | cons e es ih =>
    obtain ⟨he, hes⟩ := List.nodup_cons.mp h
    by_cases hk : e.1 = k
    · -- the key does not come again, so its last value can be written at once
      subst hk
      show ((ms.insert e.1 e.2).insertMany es).insert e.1 v = _
      rw [insert_insertMany (mem_keys_insert_self ms e.1 e.2) he, insert_insert_self]
      simp [insert, insertMany]
    · have hinsert : insert (e :: es) k v = e :: insert es k v := by simp [insert, hk]
      rw [hinsert]
      exact ih (ms.insert e.1 e.2) hes

/-- **Writing two lists in a row** is writing the first one with the second
written over it. -/
theorem insertMany_insertMany (ms : Members α) {entries : Members α} (h : entries.keys.Nodup)
    (more : List (String × α)) :
    (ms.insertMany entries).insertMany more = ms.insertMany (entries.insertMany more) := by
  induction more generalizing entries with
  | nil => rfl
  | cons e es ih =>
    show ((ms.insertMany entries).insert e.1 e.2).insertMany es
      = ms.insertMany ((entries.insert e.1 e.2).insertMany es)
    rw [insert_insertMany_eq ms h, ih (nodup_keys_insert h e.1 e.2)]

end Members

namespace Names

theorem add_addAll (names more : List String) (name : String) :
    add (addAll names more) name = addAll names (add more name) := by
  by_cases h : name ∈ more
  · have hall : name ∈ addAll names more := mem_addAll.mpr (.inr h)
    rw [add, if_pos hall, add, if_pos h]
  · have hadd : add more name = more ++ [name] := by rw [add, if_neg h]
    rw [hadd, addAll, addAll, List.foldl_append]
    rfl

/-- Appending two lists in a row is appending the first one with the second
appended to it. -/
theorem addAll_addAll (names more others : List String) :
    addAll (addAll names more) others = addAll names (addAll more others) := by
  induction others generalizing more with
  | nil => rfl
  | cons name others ih =>
    show addAll (add (addAll names more) name) others = addAll names (addAll (add more name) others)
    rw [add_addAll, ih]

end Names

namespace SchemaNode

/-! ### Site over site -/

/-- No two properties and no two facets of a node have one name. -/
structure Distinct (n : SchemaNode) : Prop where
  properties : ∀ ps, n.properties = some ps → (Members.keys ps).Nodup
  extra : (Members.keys n.extra).Nodup

theorem Distinct.nodup_properties {n : SchemaNode} (h : n.Distinct) :
    (Members.keys (n.properties.getD [])).Nodup := by
  rcases hps : n.properties with - | ps
  · exact List.nodup_nil
  · exact h.properties ps hps

theorem Distinct.overlay {base site : SchemaNode} (h : base.Distinct) :
    (base.overlay site).Distinct where
  properties ps hps := by
    rcases hsite : site.properties with - | qs
    · exact h.properties ps (by simpa [SchemaNode.overlay, overlayProperties, hsite] using hps)
    · obtain rfl : Members.insertMany (base.properties.getD []) qs = ps := by
        simpa [SchemaNode.overlay, overlayProperties, hsite] using hps
      exact Members.nodup_keys_insertMany h.nodup_properties qs
  extra := Members.nodup_keys_insertMany h.extra site.extra

theorem overlayProperties_assoc (base : Option (List (String × SchemaNode))) {n : SchemaNode}
    (h : n.Distinct) (site : Option (List (String × SchemaNode))) :
    overlayProperties (overlayProperties base n.properties) site
      = overlayProperties base (overlayProperties n.properties site) := by
  rcases site with - | ps
  · rfl
  · rcases hn : n.properties with - | qs
    -- without properties of its own, the node in the middle writes none
    · exact congrArg some (Members.insertMany_insertMany _ Members.nodup_keys_nil ps)
    · exact congrArg some (Members.insertMany_insertMany _ (h.properties qs hn) ps)

theorem overlayRequired_assoc (base names site : Option (List String)) :
    overlayRequired (overlayRequired base names) site
      = overlayRequired base (overlayRequired names site) := by
  rcases site with - | more
  · rfl
  · rcases names with - | names
    · exact congrArg some (Names.addAll_addAll _ [] more)
    · exact congrArg some (Names.addAll_addAll _ names more)

/-- **Laying a site over a site** first, or each in turn. -/
theorem overlay_assoc (base site : SchemaNode) {n : SchemaNode} (h : n.Distinct) :
    (base.overlay n).overlay site = base.overlay (n.overlay site) := by
  have hitems : (site.items <|> (n.items <|> base.items))
      = ((site.items <|> n.items) <|> base.items) := by
    cases site.items <;> rfl
  have hextra := Members.insertMany_insertMany base.extra h.extra site.extra
  have hproperties := overlayProperties_assoc base.properties h site.properties
  have hrequired := overlayRequired_assoc base.required n.required site.required
  simp only [overlay, hitems, hextra, hproperties, hrequired]

/-- Laying a mere reference over a node changes nothing. -/
theorem overlay_referenceTo (base : SchemaNode) (T : String) :
    base.overlay (referenceTo T) = base :=
  overlay_empty base

/-! ### Replacing what stands right below -/

/-- `m` is `n` with the nodes right below it replaced by related ones. -/
structure Replaces (R : SchemaNode → SchemaNode → Prop) (n m : SchemaNode) : Prop where
  properties : Option.Rel (List.Forall₂ (Labelled R)) n.properties m.properties
  items : Option.Rel R n.items m.items
  rest : m = { n with properties := m.properties, items := m.items }

section

variable {R : SchemaNode → SchemaNode → Prop} {n m n' m' : SchemaNode}

theorem insert_related {ps qs : List (String × SchemaNode)} (h : List.Forall₂ (Labelled R) ps qs)
    (name : String) (hn : R n m) :
    List.Forall₂ (Labelled R) (Members.insert ps name n) (Members.insert qs name m) := by
  induction h with
  | nil => exact .cons ⟨rfl, hn⟩ .nil
  | @cons p q ps qs hpq hrest ih =>
    by_cases hp : p.1 = name
    · have hq : q.1 = name := hpq.1.symm.trans hp
      simp only [Members.insert, hp, hq, if_true]
      exact .cons ⟨rfl, hn⟩ hrest
    · have hq : q.1 ≠ name := fun hq => hp (hpq.1.trans hq)
      simp only [Members.insert, hp, hq, if_false]
      exact .cons hpq ih

theorem insertMany_related {ps qs ps' qs' : List (String × SchemaNode)}
    (h : List.Forall₂ (Labelled R) ps qs) (h' : List.Forall₂ (Labelled R) ps' qs') :
    List.Forall₂ (Labelled R) (Members.insertMany ps ps') (Members.insertMany qs qs') := by
  induction h' generalizing ps qs with
  | nil => exact h
  | @cons p q _ _ hpq _ ih =>
    apply ih
    show List.Forall₂ (Labelled R) (Members.insert ps p.1 p.2) (Members.insert qs q.1 q.2)
    rw [← hpq.1]
    exact insert_related h p.1 hpq.2

/-- A relation of options holds between nothing and nothing, or between values. -/
theorem cases_of_rel {α β : Type} {S : α → β → Prop} {a : Option α} {b : Option β}
    (h : Option.Rel S a b) : (a = none ∧ b = none) ∨ ∃ x y, a = some x ∧ b = some y ∧ S x y := by
  cases h with
  | none => exact .inl ⟨rfl, rfl⟩
  | some h => exact .inr ⟨_, _, rfl, rfl, h⟩

theorem Replaces.getD_properties (h : Replaces R n m) :
    List.Forall₂ (Labelled R) (n.properties.getD []) (m.properties.getD []) := by
  rcases cases_of_rel h.properties with ⟨hn, hm⟩ | ⟨ps, qs, hn, hm, hpq⟩
  · simp [hn, hm]
  · simpa [hn, hm] using hpq

/-- **What is replaced below two nodes** is replaced below the one laid over the
other. -/
theorem Replaces.overlay (h : Replaces R n m) (h' : Replaces R n' m') :
    Replaces R (n.overlay n') (m.overlay m') where
  properties := by
    rcases cases_of_rel h'.properties with ⟨hn, hm⟩ | ⟨ps, qs, hn, hm, hpq⟩
    · simpa only [SchemaNode.overlay, overlayProperties, hn, hm] using h.properties
    · simp only [SchemaNode.overlay, overlayProperties, hn, hm]
      exact .some (insertMany_related h.getD_properties hpq)
  items := by
    rcases cases_of_rel h'.items with ⟨hn, hm⟩ | ⟨c, d, hn, hm, hcd⟩
    · simpa [SchemaNode.overlay, hn, hm] using h.items
    · simpa [SchemaNode.overlay, hn, hm] using hcd
  rest := by
    rw [h.rest, h'.rest]
    rfl

theorem keys_related {ps qs : List (String × SchemaNode)} (h : List.Forall₂ (Labelled R) ps qs) :
    Members.keys ps = Members.keys qs := by
  induction h with
  | nil => rfl
  | cons hpq _ ih => exact List.cons_eq_cons.mpr ⟨hpq.1, ih⟩

theorem Replaces.distinct (h : Replaces R n m) (hn : n.Distinct) : m.Distinct where
  properties qs hm := by
    rcases cases_of_rel h.properties with ⟨-, hnone⟩ | ⟨ps, qs', hps, hqs, hpq⟩
    · rw [hm] at hnone
      cases hnone
    · rw [hm] at hqs
      cases hqs
      rw [← keys_related hpq]
      exact hn.properties ps hps
  extra := by
    rw [h.rest]
    exact hn.extra

end

end SchemaNode

end RamlSchema
