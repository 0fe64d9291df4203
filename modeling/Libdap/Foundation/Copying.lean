import Mathlib.Data.List.Forall2
import Mathlib.Data.List.Nodup
import Mathlib.Tactic.Common

/-! # Copies in a store

Items that hold addresses into a store are copied one by one: each copy gets the
next free address, and what was in the store before stays there.
-/

namespace Libdap

section

variable {α ι κ : Type}

/-- The items are copied to the end of the store; `R` is what an item and what it points to
    have to do with their copies. -/
structure CopiedTo (addr : ι → Nat) (R : ι → ι → α → α → Prop) (cells cells' : List α) (items items' : List ι) :
    Prop where
  old : cells <+: cells'
  size : cells'.length = cells.length + items.length
  addrs : items'.map addr = List.range' cells.length items.length
  each : List.Forall₂ (fun x x' => ∀ a, cells[addr x]? = some a → ∃ a', cells'[addr x']? = some a' ∧ R x x' a a')
    items items'

theorem kept {cells cells' : List α} (old : cells <+: cells') {i : Nat} {a : α}
    (at_ : cells[i]? = some a) : cells'[i]? = some a := by
  obtain ⟨lt, rfl⟩ := List.getElem?_eq_some_iff.mp at_
  exact List.prefix_iff_getElem?.mp old i lt

theorem range'_append_lengths (n : Nat) (a b : List ι) :
    List.range' n a.length ++ List.range' (n + a.length) b.length = List.range' n (a ++ b).length := by
  rw [List.length_append, List.range'_append_1]

namespace CopiedTo

variable {addr : ι → Nat} {R : ι → ι → α → α → Prop} {cells cells' cells'' : List α} {xs xs' ys ys' : List ι}

theorem nil (cells : List α) : CopiedTo addr R cells cells [] [] where
  old := List.prefix_rfl
  size := rfl
  addrs := rfl
  each := .nil

theorem append (first : CopiedTo addr R cells cells' xs xs') (then_ : CopiedTo addr R cells' cells'' ys ys') :
    CopiedTo addr R cells cells'' (xs ++ ys) (xs' ++ ys') where
  old := first.old.trans then_.old
  size := by rw [then_.size, first.size, List.length_append, Nat.add_assoc]
  addrs := by rw [List.map_append, first.addrs, then_.addrs, first.size, range'_append_lengths]
  each := by
    refine List.rel_append ?_ ?_
    · refine first.each.imp fun x x' copied a at_ => ?_
      obtain ⟨a', at_', related⟩ := copied a at_
      exact ⟨a', kept then_.old at_', related⟩
    · refine then_.each.imp fun x x' copied a at_ => ?_
      exact copied a (kept first.old at_)

theorem single {x x' : ι} {a : α} (at_ : cells[addr x]? = some a) (next : addr x' = cells.length) (related : R x x' a a) :
    CopiedTo addr R cells (cells ++ [a]) [x] [x'] where
  old := List.prefix_append cells [a]
  size := by simp
  addrs := by simp [next]
  each := by
    refine .cons ?_ .nil
    intro b at_b
    obtain rfl := Option.some.inj (at_.symm.trans at_b)
    exact ⟨a, by rw [next]; exact List.getElem?_concat_length, related⟩

theorem imp {S : ι → ι → α → α → Prop} (copied : CopiedTo addr R cells cells' xs xs')
    (weaker : ∀ x ∈ xs, ∀ x' ∈ xs', ∀ a a', R x x' a a' → S x x' a a') : CopiedTo addr S cells cells' xs xs' where
  old := copied.old
  size := copied.size
  addrs := copied.addrs
  each := by
    obtain ⟨same, each⟩ := List.forall₂_iff_zip.mp copied.each
    refine List.forall₂_iff_zip.mpr ⟨same, ?_⟩
    intro x x' pair a at_
    obtain ⟨mem, mem'⟩ := List.of_mem_zip pair
    obtain ⟨a', at_', related⟩ := each pair a at_
    exact ⟨a', at_', weaker x mem x' mem' a a' related⟩

/-- The same copies, of items that say more of themselves. -/
theorem map {β : Type} {addr' : β → Nat} {S : β → β → α → α → Prop} (f f' : ι → β)
    (copied : CopiedTo addr R cells cells' xs xs') (addr_f : ∀ x, addr' (f x) = addr x) (addr_f' : ∀ x, addr' (f' x) = addr x)
    (weaker : ∀ x ∈ xs, ∀ x' ∈ xs', ∀ a a', R x x' a a' → S (f x) (f' x') a a') :
    CopiedTo addr' S cells cells' (xs.map f) (xs'.map f') where
  old := copied.old
  size := by rw [copied.size, List.length_map]
  addrs := by
    rw [List.map_map, List.length_map, ← copied.addrs]
    exact List.map_congr_left fun x _ => addr_f' x
  each := by
    rw [List.forall₂_map_left_iff, List.forall₂_map_right_iff]
    refine (copied.imp weaker).each.imp fun x x' each a at_ => ?_
    rw [addr_f] at at_
    rw [addr_f']
    exact each a at_

/-- What an item points to is copied. -/
theorem copy_of (copied : CopiedTo addr R cells cells' xs xs') {x : ι} (mem : x ∈ xs) {a : α}
    (at_ : cells[addr x]? = some a) : ∃ x' ∈ xs', ∃ a', cells'[addr x']? = some a' ∧ R x x' a a' := by
  obtain ⟨i, lt, rfl⟩ := List.getElem_of_mem mem
  have lt' : i < xs'.length := copied.each.length_eq ▸ lt
  obtain ⟨a', at_', related⟩ := copied.each.get lt lt' a at_
  exact ⟨_, List.getElem_mem lt', a', at_', related⟩

/-- Every copy is one of an item. -/
theorem original_of (copied : CopiedTo addr R cells cells' xs xs') (there : ∀ x ∈ xs, addr x < cells.length) {x' : ι}
    (mem : x' ∈ xs') : ∃ x ∈ xs, ∃ a a', cells[addr x]? = some a ∧ cells'[addr x']? = some a' ∧ R x x' a a' := by
  obtain ⟨i, lt', rfl⟩ := List.getElem_of_mem mem
  have lt : i < xs.length := copied.each.length_eq ▸ lt'
  have at_ := List.getElem?_eq_getElem (there _ (List.getElem_mem lt))
  obtain ⟨a', at_', related⟩ := copied.each.get lt lt' _ at_
  exact ⟨_, List.getElem_mem lt, _, a', at_, at_', related⟩

/-- The address of a copy is a new one. -/
theorem fresh (copied : CopiedTo addr R cells cells' xs xs') {x' : ι} (mem : x' ∈ xs') :
    cells.length ≤ addr x' ∧ addr x' < cells'.length := by
  have there : addr x' ∈ xs'.map addr := List.mem_map_of_mem mem
  rw [copied.addrs, List.mem_range'_1] at there
  rw [copied.size]
  exact there

theorem nodup (copied : CopiedTo addr R cells cells' xs xs') : (xs'.map addr).Nodup := by
  rw [copied.addrs]
  exact List.nodup_range'

/-- What has been copied is changed in some of the copies. -/
theorem modify (copied : CopiedTo addr R cells cells' xs xs') (f : α → α) (targets : List Nat) (once : targets.Nodup)
    (new : ∀ t ∈ targets, cells.length ≤ t) :
    CopiedTo addr (fun x x' a a' => ∃ b, R x x' a b ∧ a' = if addr x' ∈ targets then f b else b) cells
      (targets.foldl (fun cells t => cells.modify t f) cells') xs xs' := by
  induction targets generalizing cells' R with
  | nil =>
      refine copied.imp fun x _ x' _ a a' related => ⟨a', related, ?_⟩
      simp
  | cons t ts ih =>
      rw [List.nodup_cons] at once
      rw [List.foldl_cons]
      have one : CopiedTo addr (fun x x' a a' => ∃ b, R x x' a b ∧ a' = if addr x' = t then f b else b) cells
          (cells'.modify t f) xs xs' := by
        refine ⟨?_, ?_, copied.addrs, ?_⟩
        · rw [List.prefix_iff_getElem?]
          intro i lt
          have other : t ≠ i := Nat.ne_of_gt (Nat.lt_of_lt_of_le lt (new t List.mem_cons_self))
          rw [List.getElem?_modify, List.prefix_iff_getElem?.mp copied.old i lt]
          simp [other]
        · rw [List.length_modify, copied.size]
        · refine copied.each.imp fun x x' each a at_ => ?_
          obtain ⟨b, at_b, related⟩ := each a at_
          refine ⟨if addr x' = t then f b else b, ?_, b, related, rfl⟩
          rw [List.getElem?_modify, at_b]
          by_cases here : t = addr x'
          · simp [here]
          · simp [here, Ne.symm here]
      refine (ih one once.2 fun t' mem => new t' (List.mem_cons_of_mem t mem)).imp ?_
      rintro x - x' - a a' ⟨b, ⟨b', related, rfl⟩, rfl⟩
      refine ⟨b', related, ?_⟩
      by_cases here : addr x' = t
      · rw [here, if_neg once.1, if_pos rfl, if_pos List.mem_cons_self]
      · simp [here]

end CopiedTo

end

end Libdap
