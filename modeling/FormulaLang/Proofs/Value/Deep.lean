import FormulaLang.Catalog
import FormulaLang.Value.Build
import FormulaLang.Value.Element

/-!
# Properties of values at any depth

Some properties hold of a list or a struct just when they hold of everything in it, and hold of
scalars and vectors in any case. Taking values apart and putting them together keeps to them.

* `Value.isPlain`, `Value.Deep`: scalars and vectors, and properties of this kind.
* `Value.Deep.of_element?`, `Value.Deep.of_select?`, `Value.Deep.of_items?`: what is in a value.
* `Value.Deep.collect`, `Value.Deep.struct_ofPairs`: vectors, lists and structs of values.
* `forall_writeAll`, `forall_assignInto`: writing elements.
-/

namespace FormulaLang

namespace Value

/-- Void, scalars and vectors: what is in them are no other values. -/
def isPlain : Value → Bool
  | void | bool _ | number _ | string _ | boolVector _ | numberVector _ | stringVector _ => true
  | _ => false

/-- A property that lists and structs have just when everything in them has it. -/
structure Deep (P : Value → Prop) : Prop where
  plain : ∀ {v : Value}, v.isPlain → P v
  list : ∀ {vs : List Value}, P (.list vs) ↔ ∀ v ∈ vs, P v
  struct : ∀ {ms : Members}, P (.struct ms) ↔ ∀ m ∈ ms, P m.2

theorem mem_of_mem_gather {α : Type} {data : List α} {ks : List Nat} {x : α}
    (h : x ∈ gather data ks) : x ∈ data := by
  obtain ⟨k, -, hk⟩ := List.mem_filterMap.1 h
  exact List.mem_of_getElem? (by simpa using hk)

theorem mem_of_mem_insert {name : String} {v : Value} {ms : Members} {m : String × Value}
    (h : m ∈ ms.insert name v) : m = (name, v) ∨ m ∈ ms := by
  induction ms with
  | nil => exact .inl (List.mem_singleton.1 h)
  | cons p ms ih =>
    obtain ⟨n, u⟩ := p
    rw [Members.insert] at h
    split at h
    · exact List.mem_cons.1 h
    split at h
    · exact (List.mem_cons.1 h).imp_right (.tail _)
    · rcases List.mem_cons.1 h with rfl | h
      · exact .inr (.head _)
      · exact (ih h).imp_right (.tail _)

namespace Deep

variable {P : Value → Prop} {v w : Value} {vs : List Value} (hP : Deep P)

include hP

/-! ## Taking values apart -/

theorem of_element? {k : Nat} (hv : P v) (h : v.element? k = some w) : P w := by
  cases v with
  | void | invalid | struct ms => cases h
  | bool b | number x =>
    rw [element?] at h
    split at h <;> cases h
    exact hP.plain rfl
  | string s | boolVector v | boolMatrix v n | numberVector v | numberMatrix v n | stringVector v =>
    obtain ⟨x, -, rfl⟩ := Option.map_eq_some_iff.1 h
    exact hP.plain rfl
  | list items => exact hP.list.1 hv w (List.mem_of_getElem? h)

theorem of_select? {ks : List Nat} (hv : P v) (h : v.select? ks = some w) : P w := by
  cases v with
  | void | invalid | struct ms => cases h
  | list items =>
    cases h
    exact hP.list.2 fun u hu => hP.list.1 hv u (mem_of_mem_gather hu)
  | _ =>
    cases h
    exact hP.plain rfl

theorem of_items? (hv : P v) (h : v.items? = some vs) : ∀ w ∈ vs, P w := by
  cases v with
  | void | invalid | struct ms => cases h
  | list items =>
    cases h
    exact hP.list.1 hv
  | bool b | number x | string s =>
    cases h
    exact List.forall_mem_singleton.2 (hP.plain rfl)
  | _ =>
    cases h
    intro w hw
    obtain ⟨x, -, rfl⟩ := List.mem_map.1 hw
    exact hP.plain rfl

/-! ## Putting values together -/

theorem collect (h : ∀ v ∈ vs, P v) : P (Value.collect vs) := by
  unfold Value.collect
  split
  · exact hP.plain rfl
  split
  · exact hP.plain rfl
  split
  · exact hP.plain rfl
  · exact hP.list.2 h

theorem struct_ofPairs {pairs : List (String × Value)} (h : ∀ p ∈ pairs, P p.2) :
    P (.struct (Members.ofPairs pairs)) := by
  have hfold : ∀ ms : Members, (∀ m ∈ ms, P m.2) →
      ∀ m ∈ pairs.foldl (fun ms p => ms.insert p.1 p.2) ms, P m.2 := by
    induction pairs with
    | nil => exact fun ms hms => hms
    | cons p pairs ih =>
      obtain ⟨hp, hpairs⟩ := List.forall_mem_cons.1 h
      refine fun ms hms => ih hpairs _ fun m hm => ?_
      rcases mem_of_mem_insert hm with rfl | hm
      · exact hp
      · exact hms m hm
  exact hP.struct.2 (hfold [] (by simp))

theorem lastOr (empty : Float) {steps : Array Value} (h : ∀ v ∈ steps, P v) :
    P (Catalog.lastOr empty steps) := by
  unfold Catalog.lastOr
  cases hb : steps.back? with
  | none => exact hP.plain rfl
  | some v => exact h v (Array.mem_of_back? hb)

end Deep

end Value

/-- The members that are paired with names are among the values. -/
theorem Catalog.forall_memberPairs {P : Value → Prop} : ∀ {vs : List Value}
    {pairs : List (String × Value)}, (∀ v ∈ vs, P v) → memberPairs vs = .ok pairs →
      ∀ p ∈ pairs, P p.2
  | [], _, _, h => by
    cases h
    simp
  | [_], _, _, h => by
    cases h
    simp
  | name :: v :: rest, pairs, hvs, h => by
    cases name with
    | string s =>
      rw [memberPairs] at h
      cases hrest : memberPairs rest with
      | error f =>
        rw [hrest] at h
        cases h
      | ok others =>
        rw [hrest] at h
        cases h
        refine List.forall_mem_cons.2 ⟨hvs v (.tail _ (.head _)), ?_⟩
        exact forall_memberPairs (fun u hu => hvs u (.tail _ (.tail _ hu))) hrest
    | _ => simp [memberPairs] at h

/-! ## Writing -/

section Write

variable {α : Type} {P : α → Prop} {fill : Option α} (hfill : ∀ x ∈ fill, P x)

include hfill

theorem forall_writeAll {data : Array α} {pairs : List (Nat × α)} (hdata : ∀ x ∈ data, P x)
    (hpairs : ∀ p ∈ pairs, P p.2) : ∀ x ∈ (writeAll fill data pairs).1, P x := by
  induction pairs generalizing data with
  | nil => exact hdata
  | cons p pairs ih =>
    obtain ⟨k, x⟩ := p
    obtain ⟨hx, hpairs⟩ := List.forall_mem_cons.1 hpairs
    rw [writeAll.eq_def]
    dsimp only
    split
    · refine ih (fun y hy => ?_) hpairs
      rcases Array.mem_or_eq_of_mem_setIfInBounds hy with hy | rfl
      · exact hdata y hy
      · exact hx
    · split
      · next fill' =>
        split
        · refine ih (fun y hy => ?_) hpairs
          rcases Array.mem_push.1 hy with hy | rfl
          · rcases Array.mem_append.1 hy with hy | hy
            · exact hdata y hy
            · rw [(Array.mem_replicate.1 hy).2]
              exact hfill _ rfl
          · exact hx
        · exact hdata
      · exact hdata

theorem forall_assignInto {data : List α} {ks : List Nat} {xs : List α} (hdata : ∀ x ∈ data, P x)
    (hxs : ∀ x ∈ xs, P x) : ∀ x ∈ (assignInto fill data ks xs).1, P x := by
  have hwrite : ∀ pairs : List (Nat × α), (∀ p ∈ pairs, P p.2) →
      ∀ x ∈ (writeAll fill data.toArray pairs).1.toList, P x := by
    intro pairs hpairs x hx
    have harray : ∀ x ∈ data.toArray, P x := by simpa using hdata
    exact forall_writeAll hfill harray hpairs x (by simpa using hx)
  unfold assignInto
  dsimp only
  split
  · refine hwrite _ fun p hp => ?_
    obtain ⟨k, -, rfl⟩ := List.mem_map.1 hp
    exact hxs _ (.head _)
  · split
    · exact hwrite _ fun p hp => hxs _ (List.of_mem_zip hp).2
    · exact hdata

end Write

end FormulaLang
