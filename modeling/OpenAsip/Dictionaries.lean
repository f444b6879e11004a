import Mathlib.Data.List.Dedup
import OpenAsip.DictionaryCompression

namespace OpenAsip
set_option autoImplicit true

namespace Compression

/-- The dictionary of distinct entries, of which the last added one comes first. -/
def codes : List (List Bool) → Dictionary
  | [] => []
  | k :: keys => (k, keys.length % 2 ^ 32) :: codes keys

@[simp] theorem length_codes (keys : List (List Bool)) : (codes keys).length = keys.length := by
  induction keys with
  | nil => rfl
  | cons k keys ih => rw [codes, List.length_cons, List.length_cons, ih]

theorem isSome_lookup_codes (keys : List (List Bool)) (k : List Bool) :
    ((codes keys).lookup k).isSome = true ↔ k ∈ keys := by
  induction keys with
  | nil => simp [codes]
  | cons k' keys ih =>
    rw [codes, List.lookup_cons, List.mem_cons]
    by_cases hk : k = k'
    · simp [hk]
    · rw [beq_false_of_ne hk]
      simp [hk, ih]

theorem addToDictionary_codes (keys : List (List Bool)) (k : List Bool) :
    addToDictionary (codes keys) k = codes (keys.insert k) := by
  by_cases hk : k ∈ keys
  · rw [addToDictionary, if_pos ((isSome_lookup_codes keys k).2 hk), List.insert_of_mem hk]
  · have hnone := mt (isSome_lookup_codes keys k).1 hk
    rw [addToDictionary, if_neg hnone, StdMap.insert, if_neg hnone, List.insert_of_not_mem hk,
      codes, length_codes]

/-- A code is below the size, and the entry is found by it. -/
theorem lookup_codes (hnodup : keys.Nodup) (hlength : keys.length ≤ 2 ^ 32) (hk : k ∈ keys) :
    ∃ code < keys.length, valueForKey (codes keys) k = .ok code ∧
      keyForValue (codes keys) code = .ok k := by
  induction keys with
  | nil => cases hk
  | cons k' keys ih =>
    obtain ⟨hnot, hnodup⟩ := List.nodup_cons.1 hnodup
    rw [List.length_cons] at hlength
    have hcode : keys.length % 2 ^ 32 = keys.length := Nat.mod_eq_of_lt (by omega)
    by_cases heq : k = k'
    · subst heq
      refine ⟨keys.length, Nat.lt_succ_self _, ?_, ?_⟩
      · rw [valueForKey, codes, List.lookup_cons_self, hcode]
      · rw [keyForValue, codes, hcode, List.find?_cons_of_pos]
        exact decide_eq_true rfl
    · obtain ⟨code, hlt, hvalue, hkey⟩ := ih hnodup (by omega)
        ((List.mem_cons.1 hk).resolve_left heq)
      refine ⟨code, Nat.lt_succ_of_lt hlt, ?_, ?_⟩
      · rw [valueForKey, codes, List.lookup_cons, beq_false_of_ne heq]
        exact hvalue
      · rw [keyForValue, codes, List.find?_cons_of_neg]
        · exact hkey
        · rw [hcode, decide_eq_true_iff]
          omega

/-- The distinct words in the order that the dictionary has them. -/
def distinct (words : List (List Bool)) : List (List Bool) :=
  words.foldl (fun keys k => keys.insert k) []

theorem foldl_insert_spec (words keys : List (List Bool)) (hkeys : keys.Nodup) :
    (words.foldl (fun keys k => keys.insert k) keys).Nodup ∧
      ∀ k, k ∈ words.foldl (fun keys k => keys.insert k) keys ↔ k ∈ words ∨ k ∈ keys := by
  induction words generalizing keys with
  | nil => exact ⟨hkeys, fun k => by simp⟩
  | cons w words ih =>
    obtain ⟨hnodup, hmem⟩ := ih (keys.insert w) hkeys.insert
    refine ⟨hnodup, fun k => ?_⟩
    rw [List.foldl_cons, hmem, List.mem_insert_iff, List.mem_cons, or_left_comm, or_assoc]

theorem nodup_distinct (words : List (List Bool)) : (distinct words).Nodup :=
  (foldl_insert_spec words [] List.nodup_nil).1

theorem mem_distinct : k ∈ distinct words ↔ k ∈ words := by
  rw [distinct, (foldl_insert_spec words [] List.nodup_nil).2]
  exact or_iff_left List.not_mem_nil

theorem length_distinct (words : List (List Bool)) :
    (distinct words).length = words.dedup.length := by
  apply List.Perm.length_eq
  rw [List.perm_ext_iff_of_nodup (nodup_distinct words) (List.nodup_dedup words)]
  intro k
  rw [mem_distinct, List.mem_dedup]

end Compression

end OpenAsip
