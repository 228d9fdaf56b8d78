import Mathlib.Data.Multiset.Range
import Mathlib.Logic.Equiv.Basic
import Mathlib.Order.Basic
import Mathlib.Tactic.Common

/-!
# Binary heaps

A binary heap keeps its elements in the first places of a memory, each at most as large as the
one at its parent.  An element that is out of order is moved up or down by exchanges; the order
that the rest of the heap has meanwhile is `UpOrder` and `DownOrder`.
-/

namespace BinaryHeap

variable {α : Type} {f : ℕ → α} {n i j : ℕ} {x : α}

/-- The place above a place. -/
def parent (i : ℕ) : ℕ := (i - 1) / 2

theorem parent_lt (h : 0 < i) :
  parent i < i
  := by
  rw [parent]
  omega

theorem parent_eq_iff (h : 0 < j) :
  parent j = i ↔ j = i * 2 + 1 ∨ j = i * 2 + 2
  := by
  rw [parent]
  omega

/-- The elements at the first `n` places. -/
def contents (f : ℕ → α) (n : ℕ) : Multiset α := (Multiset.range n).map f

theorem mem_contents :
  x ∈ contents f n ↔ ∃ i < n, f i = x
  := by
  simp [contents]

theorem contents_congr {g : ℕ → α} (h : ∀ i < n, g i = f i) :
  contents g n = contents f n
  := by
  apply Multiset.map_congr rfl
  intro i hi
  apply h i (Multiset.mem_range.mp hi)

theorem contents_succ (f : ℕ → α) (n : ℕ) :
  contents f (n + 1) = f n ::ₘ contents f n
  := by
  rw [contents, Multiset.range_succ, Multiset.map_cons, contents]

/-! ### Exchanges -/

/-- The memory with the elements at `i` and `j` exchanged, by two stores. -/
def exchange (f : ℕ → α) (i j : ℕ) : ℕ → α :=
  Function.update (Function.update f i (f j)) j (f i)

theorem exchange_left (h : i ≠ j) :
  exchange f i j i = f j
  := by
  rw [exchange, Function.update_of_ne h, Function.update_self]

theorem exchange_right (f : ℕ → α) (i j : ℕ) :
  exchange f i j j = f i
  := Function.update_self ..

theorem exchange_of_ne {k : ℕ} (hi : k ≠ i) (hj : k ≠ j) :
  exchange f i j k = f k
  := by
  rw [exchange, Function.update_of_ne hj, Function.update_of_ne hi]

theorem exchange_eq_comp (f : ℕ → α) (i j : ℕ) :
  exchange f i j = f ∘ Equiv.swap i j
  := by
  rw [Equiv.swap_comm, Equiv.comp_swap_eq_update, exchange]

/-- An exchange leaves the contents as they are. -/
theorem contents_exchange (hi : i < n) (hj : j < n) :
  contents (exchange f i j) n = contents f n
  := by
  have hrange : (Multiset.range n).map (Equiv.swap i j) = Multiset.range n := by
    apply (Multiset.Nodup.ext _ (Multiset.nodup_range n)).mpr
    · intro k
      simp only [Multiset.mem_map, Multiset.mem_range]
      constructor
      · rintro ⟨l, hl, rfl⟩
        rw [Equiv.swap_apply_def]
        split_ifs
        · apply hj
        · apply hi
        · apply hl
      · intro hk
        refine ⟨Equiv.swap i j k, ?_, Equiv.swap_apply_self i j k⟩
        rw [Equiv.swap_apply_def]
        split_ifs
        · apply hj
        · apply hi
        · apply hk
    · apply (Multiset.nodup_map_iff_of_injective (Equiv.injective _)).mpr
      apply Multiset.nodup_range
  rw [exchange_eq_comp, contents, ← Multiset.map_map, hrange, contents]

/-- The first element leaves and the last one takes its place. -/
theorem contents_pop (f : ℕ → α) (n : ℕ) :
  contents f (n + 1) = f 0 ::ₘ contents (Function.update f 0 (f n)) n
  := by
  rw [← contents_exchange (Nat.zero_lt_succ n) (Nat.lt_succ_self n), contents_succ, exchange_right]
  congr 1
  apply contents_congr
  intro i hi
  rw [exchange, Function.update_of_ne (Nat.ne_of_lt hi)]

/-! ### The order of a heap -/

variable [LinearOrder α]

/-- Every element is at most as large as the one above it. -/
def Ordered (f : ℕ → α) (n : ℕ) : Prop := ∀ j < n, 0 < j → f j ≤ f (parent j)

/-- The first element of a heap is a largest one. -/
theorem Ordered.le_root (h : Ordered f n) (hj : j < n) :
  f j ≤ f 0
  := by
  induction j using Nat.strongRec with
  | ind j ih =>
      rcases Nat.eq_zero_or_pos j with rfl | hpos
      · apply le_refl
      · have hp := parent_lt hpos
        apply le_trans (h j hj hpos) (ih _ hp (by omega))

theorem Ordered.mono {m : ℕ} (h : Ordered f n) (hm : m ≤ n) :
  Ordered f m
  := fun j hj => h j (by omega)

/-- A heap but for the element at `i`, which may be too large for its parent. -/
structure UpOrder (f : ℕ → α) (n i : ℕ) : Prop where
  except : ∀ j < n, 0 < j → j ≠ i → f j ≤ f (parent j)
  grand : ∀ j < n, 0 < j → parent j = i → 0 < i → f j ≤ f (parent i)

/-- A heap but for the element at `i`, which may be too small for its children. -/
structure DownOrder (f : ℕ → α) (n i : ℕ) : Prop where
  except : ∀ j < n, 0 < j → parent j ≠ i → f j ≤ f (parent j)
  grand : ∀ j < n, 0 < j → parent j = i → 0 < i → f j ≤ f (parent i)

/-! ### Moving up -/

/-- An element behind a heap may be too large for its parent only. -/
theorem Ordered.push (h : Ordered f n) (x : α) :
  UpOrder (Function.update f n x) (n + 1) n
  := by
  constructor
  · intro j hj hpos hne
    have hp := parent_lt hpos
    rw [Function.update_of_ne hne, Function.update_of_ne (by omega)]
    apply h j (by omega) hpos
  · intro j hj hpos hparent _
    have hp := parent_lt hpos
    omega

/-- An element that is larger than its parent moves up. -/
theorem UpOrder.move (h : UpOrder f n i) (hpos : 0 < i) (hi : i < n) (hlt : f (parent i) < f i) :
  UpOrder (exchange f (parent i) i) n (parent i)
  := by
  have hp := parent_lt hpos
  constructor
  · intro j hj hjpos hne
    have hpj := parent_lt hjpos
    rcases eq_or_ne j i with rfl | hji
    · rw [exchange_right, exchange_left (Nat.ne_of_lt hp)]
      apply le_of_lt hlt
    · rw [exchange_of_ne hne hji]
      have hle := h.except j hj hjpos hji
      rcases eq_or_ne (parent j) (parent i) with heq | hne'
      · rw [heq, exchange_left (Nat.ne_of_lt hp)]
        rw [heq] at hle
        apply le_trans hle (le_of_lt hlt)
      · rcases eq_or_ne (parent j) i with heq | hne''
        · rw [heq, exchange_right]
          apply h.grand j hj hjpos heq hpos
        · rw [exchange_of_ne hne' hne'']
          apply hle
  · intro j hj hjpos hparent hppos
    have hpp := parent_lt hppos
    have hpj := parent_lt hjpos
    have habove : f (parent i) ≤ f (parent (parent i)) :=
      h.except (parent i) (by omega) hppos (by omega)
    rw [exchange_of_ne (k := parent (parent i)) (by omega) (by omega)]
    rcases eq_or_ne j i with rfl | hji
    · rw [exchange_right]
      apply habove
    · rw [exchange_of_ne (by omega) hji]
      have hle := h.except j hj hjpos hji
      rw [hparent] at hle
      apply le_trans hle habove

/-- An element that is not larger than its parent, or has none, is in order. -/
theorem UpOrder.finish (h : UpOrder f n i) (hi : 0 < i → f i ≤ f (parent i)) :
  Ordered f n
  := by
  intro j hj hpos
  rcases eq_or_ne j i with rfl | hne
  · apply hi hpos
  · apply h.except j hj hpos hne

/-! ### Moving down -/

/-- An element in place of the first one may be too small for its children only. -/
theorem Ordered.replace (h : Ordered f n) (x : α) :
  DownOrder (Function.update f 0 x) n 0
  := by
  constructor
  · intro j hj hpos hparent
    rw [Function.update_of_ne (Nat.ne_of_gt hpos), Function.update_of_ne hparent]
    apply h j hj hpos
  · intro j hj hpos hparent h0
    contradiction

/-- An element that is not larger than its largest child moves down. -/
theorem DownOrder.move {m : ℕ} (h : DownOrder f n i) (hm : m < n) (hpos : 0 < m)
    (hparent : parent m = i) (hmax : ∀ j < n, 0 < j → parent j = i → f j ≤ f m)
    (hle : f i ≤ f m) :
  DownOrder (exchange f i m) n m
  := by
  have hp := parent_lt hpos
  rw [hparent] at hp
  constructor
  · intro j hj hjpos hne
    have hpj := parent_lt hjpos
    rcases eq_or_ne j m with rfl | hjm
    · rw [exchange_right, hparent, exchange_left (Nat.ne_of_lt hp)]
      apply hle
    · rcases eq_or_ne j i with rfl | hji
      · rw [exchange_left (Nat.ne_of_lt hp), exchange_of_ne (by omega) hne]
        apply h.grand m hm hpos hparent hjpos
      · rw [exchange_of_ne hji hjm]
        rcases eq_or_ne (parent j) i with heq | hne'
        · rw [heq, exchange_left (Nat.ne_of_lt hp)]
          apply hmax j hj hjpos heq
        · rw [exchange_of_ne hne' hne]
          apply h.except j hj hjpos hne'
  · intro j hj hjpos hparent' _
    have hpj := parent_lt hjpos
    rw [hparent, exchange_left (Nat.ne_of_lt hp), exchange_of_ne (by omega) (by omega)]
    have hle' := h.except j hj hjpos (by omega)
    rw [hparent'] at hle'
    apply hle'

/-- An element that is at least as large as its children is in order. -/
theorem DownOrder.finish (h : DownOrder f n i)
    (hi : ∀ j < n, 0 < j → parent j = i → f j ≤ f i) :
  Ordered f n
  := by
  intro j hj hpos
  rcases eq_or_ne (parent j) i with heq | hne
  · rw [heq]
    apply hi j hj hpos heq
  · apply h.except j hj hpos hne

end BinaryHeap
