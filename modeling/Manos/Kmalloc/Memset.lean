import Manos.Lib.ByteMem

/-!
# kmemset

`kmemset m dest c n` is the memory after `kmemset(dest, c, n)`: the head and the tail are
filled by bytes, then by words, and what is left between them by blocks of four double
words from an address that is a multiple of eight.  `kmemset_eq_fill` says that the
overlapping stores together fill exactly the `n` bytes from `dest` on.
-/

open ByteMem

namespace Kmalloc

/-- The word with all four bytes equal to `c`: `((u32)-1)/255 * c`. -/
def c32 (c : BitVec 8) : Nat := 0x01010101 * c.toNat

/-- The double word with all eight bytes equal to `c`. -/
def c64 (c : BitVec 8) : Nat := c32 c + c32 c * 2 ^ 32

/-- The loop that stores `blocks` blocks of four double words from `s` on. -/
def kmemsetLoop (c : BitVec 8) : Nat → ByteMem → Nat → ByteMem
  | 0, m, _ => m
  | blocks + 1, m, s =>
    let m := store64 m s (c64 c)
    let m := store64 m (s + 8) (c64 c)
    let m := store64 m (s + 16) (c64 c)
    let m := store64 m (s + 24) (c64 c)
    kmemsetLoop c blocks m (s + 32)

/-- The part of `kmemset` on words, from a multiple of four. -/
def kmemsetWords (c : BitVec 8) (m : ByteMem) (s n : Nat) : ByteMem :=
  let m := store32 m s (c32 c)
  let m := store32 m (s + n - 4) (c32 c)
  if n ≤ 8 then m else
  let m := store32 m (s + 4) (c32 c)
  let m := store32 m (s + 8) (c32 c)
  let m := store32 m (s + n - 12) (c32 c)
  let m := store32 m (s + n - 8) (c32 c)
  if n ≤ 24 then m else
  let m := store32 m (s + 12) (c32 c)
  let m := store32 m (s + 16) (c32 c)
  let m := store32 m (s + 20) (c32 c)
  let m := store32 m (s + 24) (c32 c)
  let m := store32 m (s + n - 28) (c32 c)
  let m := store32 m (s + n - 24) (c32 c)
  let m := store32 m (s + n - 20) (c32 c)
  let m := store32 m (s + n - 16) (c32 c)
  let k := 24 + s / 4 % 2 * 4
  kmemsetLoop c ((n - k) / 32) m (s + k)

/-- `kmemset(dest, c, n)`. -/
def kmemset (m : ByteMem) (dest : Nat) (c : BitVec 8) (n : Nat) : ByteMem :=
  if n = 0 then m else
  let m := write m (dest + n - 1) c
  let m := write m dest c
  if n ≤ 2 then m else
  let m := write m (dest + n - 2) c
  let m := write m (dest + 1) c
  let m := write m (dest + n - 3) c
  let m := write m (dest + 2) c
  if n ≤ 6 then m else
  let m := write m (dest + n - 4) c
  let m := write m (dest + 3) c
  if n ≤ 8 then m else
  let k := (4 - dest % 4) % 4
  kmemsetWords c m (dest + k) ((n - k) / 4 * 4)

/-! ### Stores of a repeated byte -/

/-- Two adjacent fills are one. -/
theorem fill_adjacent (m : ByteMem) {a b k l : Nat} (c : BitVec 8) (h : b = a + k) :
  fill (fill m a k c) b l c = fill m a (k + l) c
  := by
  funext x
  simp only [fill_apply]
  split_ifs
  all_goals first | rfl | omega

theorem write_eq_fill (m : ByteMem) (a : Nat) (c : BitVec 8) :
  write m a c = fill m a 1 c
  := by
  funext x
  simp only [write_apply, fill_apply]
  congr 1
  apply propext
  omega

/-- The bytes of `c32 c` are `c`. -/
theorem ofNat_c32_div (c : BitVec 8) {d : Nat} (hd : d = 1 ∨ d = 2 ^ 8 ∨ d = 2 ^ 16 ∨ d = 2 ^ 24) :
  BitVec.ofNat 8 (c32 c / d) = c
  := by
  have hc := c.isLt
  apply BitVec.eq_of_toNat_eq
  rw [BitVec.toNat_ofNat, c32]
  have h1 : 0x01010101 * c.toNat / 2 ^ 8 = 0x010101 * c.toNat := by omega
  have h2 : 0x01010101 * c.toNat / 2 ^ 16 = 0x0101 * c.toNat := by omega
  have h3 : 0x01010101 * c.toNat / 2 ^ 24 = 0x01 * c.toNat := by omega
  rcases hd with rfl | rfl | rfl | rfl
  · omega
  · rw [h1]
    omega
  · rw [h2]
    omega
  · rw [h3]
    omega

theorem store32_c32 (m : ByteMem) (a : Nat) (c : BitVec 8) :
  store32 m a (c32 c) = fill m a 4 c
  := by
  have h0 := ofNat_c32_div c (.inl rfl)
  rw [Nat.div_one] at h0
  have h1 := ofNat_c32_div c (.inr (.inl rfl))
  have h2 := ofNat_c32_div c (.inr (.inr (.inl rfl)))
  have h3 := ofNat_c32_div c (.inr (.inr (.inr rfl)))
  funext x
  rw [store32, h0, h1, h2, h3, fill_apply]
  split_ifs
  all_goals first | rfl | omega

theorem store64_c64 (m : ByteMem) (a : Nat) (c : BitVec 8) :
  store64 m a (c64 c) = fill m a 8 c
  := by
  have hc := c.isLt
  have hlt : c32 c < 2 ^ 32 := by
    rw [c32]
    omega
  have hlow : store32 m a (c64 c) = store32 m a (c32 c) := by
    have h (d e : Nat) (hd : d * e = 2 ^ 32) (he : e % 2 ^ 8 = 0) (hd0 : 0 < d) :
        BitVec.ofNat 8 (c64 c / d) = BitVec.ofNat 8 (c32 c / d) := by
      apply BitVec.eq_of_toNat_eq
      rw [BitVec.toNat_ofNat, BitVec.toNat_ofNat, c64, ← hd, Nat.mul_comm d e, ← Nat.mul_assoc,
        Nat.add_mul_div_right _ _ hd0]
      rw [Nat.add_mod, Nat.mul_mod, he]
      simp
    funext x
    have h0 := h 1 (2 ^ 32) rfl rfl (by decide)
    rw [Nat.div_one, Nat.div_one] at h0
    rw [store32, store32, h0, h (2 ^ 8) (2 ^ 24) rfl rfl (by decide),
      h (2 ^ 16) (2 ^ 16) rfl rfl (by decide), h (2 ^ 24) (2 ^ 8) rfl rfl (by decide)]
  have hhigh : c64 c / 2 ^ 32 = c32 c := by
    rw [c64]
    omega
  rw [store64, hlow, hhigh, store32_c32, store32_c32, fill_adjacent m c rfl]

/-! ### Filling from both ends -/

/-- `m'` is `m` outside of the `n` bytes from `dest` on, and is filled with `c` before `A`
and from `B` on. -/
structure Filling (c : BitVec 8) (m : ByteMem) (dest n A B : Nat) (m' : ByteMem) : Prop where
  outside : ∀ x, x < dest ∨ dest + n ≤ x → m' x = m x
  head : ∀ x, dest ≤ x → x < A → m' x = c
  tail : ∀ x, B ≤ x → x < dest + n → m' x = c

namespace Filling

variable {c : BitVec 8} {m m' : ByteMem} {dest n A B : Nat}

theorem start (c : BitVec 8) (m : ByteMem) (dest n : Nat) :
  Filling c m dest n dest (dest + n) m
  := by
  constructor
  · intro x _
    rfl
  · intro x h h'
    omega
  · intro x h h'
    omega

/-- Filling `k` bytes from `a` on extends the head. -/
theorem fillHead (h : Filling c m dest n A B m') {a k : Nat} (ha : dest ≤ a) (hA : a ≤ A)
    (hk : a + k ≤ dest + n) :
  Filling c m dest n (a + k) B (fill m' a k c)
  := by
  constructor
  · intro x hx
    rw [fill_apply, if_neg (by omega)]
    apply h.outside x hx
  · intro x hx hx'
    rw [fill_apply]
    split
    · rfl
    · apply h.head x hx (by omega)
  · intro x hx hx'
    rw [fill_apply]
    split
    · rfl
    · apply h.tail x hx hx'

/-- Filling `k` bytes from `a` on extends the tail. -/
theorem fillTail (h : Filling c m dest n A B m') {a k : Nat} (ha : dest ≤ a) (hB : B ≤ a + k)
    (hk : a + k ≤ dest + n) :
  Filling c m dest n A a (fill m' a k c)
  := by
  constructor
  · intro x hx
    rw [fill_apply, if_neg (by omega)]
    apply h.outside x hx
  · intro x hx hx'
    rw [fill_apply]
    split
    · rfl
    · apply h.head x hx hx'
  · intro x hx hx'
    rw [fill_apply]
    split
    · rfl
    · apply h.tail x (by omega) hx'

/-- When the head reaches the tail everything is filled. -/
theorem complete (h : Filling c m dest n A B m') (hAB : B ≤ A) :
  m' = fill m dest n c
  := by
  funext x
  rw [fill_apply]
  split
  · by_cases hx : x < A
    · apply h.head x (by omega) hx
    · apply h.tail x (by omega) (by omega)
  · apply h.outside x (by omega)

/-- A double word extends the head. -/
theorem store64Head (h : Filling c m dest n A B m') {a : Nat} (ha : dest ≤ a) (hA : a ≤ A)
    (hk : a + 8 ≤ dest + n) :
  Filling c m dest n (a + 8) B (store64 m' a (c64 c))
  := by
  rw [store64_c64]
  apply h.fillHead ha hA hk

/-- The block loop extends the head by all of its blocks. -/
theorem loop (blocks : Nat) {s : Nat} (h : Filling c m dest n A B m') (hs : dest ≤ s)
    (hA : s ≤ A) (hk : s + 32 * blocks ≤ dest + n) :
  ∃ A', s + 32 * blocks ≤ A' ∧ Filling c m dest n A' B (kmemsetLoop c blocks m' s)
  := by
  induction blocks generalizing s A m' with
  | zero =>
      use A
      constructor
      · omega
      · apply h
  | succ blocks ih =>
      have h1 := h.store64Head hs hA (by omega)
      have h2 := h1.store64Head (a := s + 8) (by omega) (by omega) (by omega)
      have h3 := h2.store64Head (a := s + 16) (by omega) (by omega) (by omega)
      have h4 := h3.store64Head (a := s + 24) (by omega) (by omega) (by omega)
      obtain ⟨A', hA', hfill⟩ := ih (s := s + 32) h4 (by omega) (by omega) (by omega)
      use A'
      constructor
      · omega
      · apply hfill

/-- The part on words fills what is left between the head and the tail. -/
theorem words {s k : Nat} (h : Filling c m dest n A B m') (hs : dest ≤ s) (hA : s ≤ A)
    (hk : s + k ≤ dest + n) (hB : B ≤ s + k) (hk4 : 4 ≤ k) (hmod : k % 4 = 0)
    (hs4 : s % 4 = 0) :
  kmemsetWords c m' s k = fill m dest n c
  := by
  simp only [kmemsetWords, store32_c32]
  have h1 := (h.fillHead (k := 4) hs hA (by omega)).fillTail (a := s + k - 4) (k := 4)
    (by omega) (by omega) (by omega)
  split
  · apply h1.complete
    omega
  · rw [fill_adjacent (a := s + k - 12) (b := s + k - 8) _ c (by omega),
      fill_adjacent (a := s + 4) (b := s + 8) _ c (by omega)]
    have h2 := (h1.fillHead (a := s + 4) (k := 8) (by omega) (by omega) (by omega)).fillTail
      (a := s + k - 12) (k := 8) (by omega) (by omega) (by omega)
    split
    · apply h2.complete
      omega
    · rw [fill_adjacent (a := s + k - 28) (b := s + k - 24) _ c (by omega),
        fill_adjacent (a := s + k - 28) (b := s + k - 20) _ c (by omega),
        fill_adjacent (a := s + k - 28) (b := s + k - 16) _ c (by omega),
        fill_adjacent (a := s + 12) (b := s + 16) _ c (by omega),
        fill_adjacent (a := s + 12) (b := s + 20) _ c (by omega),
        fill_adjacent (a := s + 12) (b := s + 24) _ c (by omega)]
      have h3 := (h2.fillHead (a := s + 12) (k := 16) (by omega) (by omega) (by omega)).fillTail
        (a := s + k - 28) (k := 16) (by omega) (by omega) (by omega)
      obtain ⟨A', hA', hfill⟩ := h3.loop ((k - (24 + s / 4 % 2 * 4)) / 32)
        (s := s + (24 + s / 4 % 2 * 4)) (by omega) (by omega) (by omega)
      apply hfill.complete
      omega

end Filling

/-- `kmemset` fills the `n` bytes from `dest` on and changes no other byte. -/
theorem kmemset_eq_fill (m : ByteMem) (dest : Nat) (c : BitVec 8) (n : Nat) :
  kmemset m dest c n = fill m dest n c
  := by
  simp only [kmemset, write_eq_fill]
  split
  case isTrue h0 =>
    rw [h0, fill_zero]
  case isFalse h0 =>
    have h1 := ((Filling.start c m dest n).fillTail (a := dest + n - 1) (k := 1)
      (by omega) (by omega) (by omega)).fillHead (a := dest) (k := 1)
      (by omega) (by omega) (by omega)
    split
    · apply h1.complete
      omega
    · have h2 := ((h1.fillTail (a := dest + n - 2) (k := 1)
        (by omega) (by omega) (by omega)).fillHead (a := dest + 1) (k := 1)
        (by omega) (by omega) (by omega)).fillTail (a := dest + n - 3) (k := 1)
        (by omega) (by omega) (by omega)
      have h3 := h2.fillHead (a := dest + 2) (k := 1) (by omega) (by omega) (by omega)
      split
      · apply h3.complete
        omega
      · have h4 := (h3.fillTail (a := dest + n - 4) (k := 1)
          (by omega) (by omega) (by omega)).fillHead (a := dest + 3) (k := 1)
          (by omega) (by omega) (by omega)
        split
        · apply h4.complete
          omega
        · apply h4.words
          all_goals omega

end Kmalloc
