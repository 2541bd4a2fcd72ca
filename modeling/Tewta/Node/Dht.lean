import Mathlib
import Tewta.Packets

/-!
# The store of a node

`DhtStore` files values under keys.  `get` drops the entry of a key that has
lost all its values, so it returns the store as well.

What the store is for is a list of values for every key.  `Holds` says that it has
those lists and no empty entry, which every call keeps; so `get` changes nothing
(`get_of_holds`), and after any calls the list of a key is what was set for it
(`holds_after`).
-/

namespace Tewta

structure DhtStore where
  table : Std.ExtTreeMap KeyID (List DhtValue)

namespace DhtStore

/-- `DhtStore::default`. -/
def empty : DhtStore := ⟨∅⟩

/-- `DhtStore::get`. -/
def get (store : DhtStore) (key : KeyID) : Option (List DhtValue) × DhtStore :=
  match store.table[key]? with
  | some [] => (none, ⟨store.table.erase key⟩)
  | some values => (some values, store)
  | none => (none, store)

/-- `DhtStore::set`. -/
def set (store : DhtStore) (key : KeyID) (value : DhtValue) : DhtStore :=
  ⟨store.table.insert key ((store.table[key]?).getD [] ++ [value])⟩

end DhtStore

/-! ### What the store holds -/

/-- A store is called. -/
inductive StoreCall
  | get (key : KeyID)
  | set (key : KeyID) (value : DhtValue)

namespace DhtStore

def call (store : DhtStore) : StoreCall → DhtStore
  | .get key => (store.get key).2
  | .set key value => store.set key value

/-- A store that has seen some calls. -/
def after (calls : List StoreCall) : DhtStore := calls.foldl call empty

/-- The values that some calls set for a key, in the order of the calls. -/
def valuesSet (calls : List StoreCall) (key : KeyID) : List DhtValue :=
  calls.filterMap fun
    | .set key' value => if key' = key then some value else none
    | .get _ => none

/-- The store has a list of values for every key, and no entry where that is empty. -/
def Holds (store : DhtStore) (values : KeyID → List DhtValue) : Prop :=
  ∀ key, store.table[key]? = if values key = [] then none else some (values key)

variable {store : DhtStore} {values : KeyID → List DhtValue}

theorem get_of_holds (h : store.Holds values) (key : KeyID) :
    store.get key = (if values key = [] then none else some (values key), store) := by
  rw [get, h key]
  by_cases hnil : values key = []
  · rw [if_pos hnil]
  · rw [if_neg hnil]
    split
    · rename_i heq
      exact absurd (Option.some.inj heq) hnil
    · rename_i heq
      rw [← heq]
    · rename_i heq
      cases heq

theorem Holds.set (h : store.Holds values) (key : KeyID) (value : DhtValue) :
    (store.set key value).Holds
      (Function.update values key (values key ++ [value])) := by
  intro key'
  rw [DhtStore.set, Std.ExtTreeMap.getElem?_insert]
  by_cases heq : key' = key
  · subst heq
    rw [if_pos Std.ReflCmp.compare_self, Function.update_self, if_neg (by simp), h key']
    by_cases hnil : values key' = []
    · rw [if_pos hnil, hnil]
      rfl
    · rw [if_neg hnil, Option.getD_some]
  · rw [if_neg fun hc => heq (Std.LawfulEqOrd.compare_eq_iff_eq.mp hc).symm,
      Function.update_of_ne heq]
    exact h key'

theorem valuesSet_get (calls : List StoreCall) (key : KeyID) :
    valuesSet (calls ++ [.get key]) = valuesSet calls := by
  funext key'
  simp [valuesSet]

theorem valuesSet_set (calls : List StoreCall) (key : KeyID) (value : DhtValue) :
    valuesSet (calls ++ [.set key value]) =
      Function.update (valuesSet calls) key (valuesSet calls key ++ [value]) := by
  funext key'
  by_cases heq : key' = key
  · subst heq
    simp [valuesSet]
  · rw [Function.update_of_ne heq]
    simp [valuesSet, Ne.symm heq]

/-- **The store holds what was set**, whatever is looked up in between. -/
theorem holds_after (calls : List StoreCall) : (after calls).Holds (valuesSet calls) := by
  induction calls using List.reverseRecOn with
  | nil =>
    intro key
    exact Std.ExtTreeMap.getElem?_empty
  | append_singleton calls c ih =>
    have hafter : after (calls ++ [c]) = (after calls).call c := by
      rw [after, List.foldl_append]
      rfl
    rw [hafter]
    cases c with
    | get key =>
      have hget : (after calls).call (.get key) = after calls :=
        congrArg Prod.snd (get_of_holds ih key)
      rw [hget, valuesSet_get]
      exact ih
    | set key value =>
      rw [valuesSet_set]
      exact ih.set key value

end DhtStore

end Tewta
