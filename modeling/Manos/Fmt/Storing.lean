import Manos.Fmt.Pieces

/-!
# What the parts of the formatter store

Each part of the formatter stores the characters it is asked for, or as many of them as there
is space for.  The only other outcome is a number that is read from outside `intBuf`.
-/

namespace Fmt

open Exec

variable {s s₁ q : Frame} {l l' : List Byte} {b : Byte} {m : Nat}

/-! ### Storing -/

/-- The remaining space is the part of the buffer after `p`. -/
structure Room (s : Frame) : Prop where
  space : s.p + s.n = s.size
  size : s.size < 2 ^ 32

/-- There is no zero in what was stored. -/
def Clean (s : Frame) : Prop :=
  ∀ j, j < s.p → s.buf j ≠ 0

/-- The characters `l` were stored, and the remaining space is smaller by their number. -/
structure Moved (s q : Frame) (l : List Byte) : Prop where
  p : q.p = s.p + l.length
  n : q.n + l.length = s.n
  size : q.size = s.size
  clean : Clean q ↔ Clean s ∧ 0 ∉ l
  frame : ∀ j, s.size ≤ j → q.buf j = s.buf j

/-- The characters `l` were stored, and nothing else changed. -/
structure Stored (s q : Frame) (l : List Byte) : Prop extends Moved s q l where
  intBuf : q.intBuf = s.intBuf
  ap : q.ap = s.ap

theorem Moved.room (h : Moved s q l) (hr : Room s) :
  Room q
  := by
  have hp := h.p
  have hn := h.n
  have hs := hr.space
  refine ⟨?_, h.size ▸ hr.size⟩
  rw [h.size]
  omega

theorem Moved.trans (h : Moved s s₁ l) (h' : Moved s₁ q l') :
  Moved s q (l ++ l')
  := by
  refine ⟨?_, ?_, h'.size.trans h.size, ?_, fun j hj => ?_⟩
  · rw [h'.p, h.p, List.length_append, Nat.add_assoc]
  · have h₁ := h.n
    have h₂ := h'.n
    rw [List.length_append]
    omega
  · rw [h'.clean, h.clean, List.mem_append, not_or, and_assoc]
  · rw [h'.frame j (h.size ▸ hj), h.frame j hj]

theorem Stored.trans (h : Stored s s₁ l) (h' : Stored s₁ q l') :
  Stored s q (l ++ l')
  := ⟨h.toMoved.trans h'.toMoved, h'.intBuf.trans h.intBuf, h'.ap.trans h.ap⟩

theorem Stored.refl (s : Frame) :
  Stored s s []
  := ⟨⟨rfl, rfl, rfl, (and_iff_left List.not_mem_nil).symm, fun _ _ => rfl⟩, rfl, rfl⟩

theorem subWord_of_le {x y : Nat} (h : y ≤ x) (hx : x < 2 ^ 32) :
  subWord x y = x - y
  := by
  rw [subWord]
  omega

/-- The state after a character was stored at `p`. -/
def Frame.after (s : Frame) (b : Byte) : Frame :=
  { s with buf := Function.update s.buf s.p b, p := s.p + 1, n := s.n - 1 }

theorem stored_after (hr : Room s) (hn : 0 < s.n) :
  Stored s (s.after b) [b]
  := by
  refine ⟨⟨rfl, Nat.sub_add_cancel hn, rfl, ?_, fun j hj => ?_⟩, rfl, rfl⟩
  · rw [Clean, Clean, List.mem_singleton]
    change (∀ j, j < s.p + 1 → Function.update s.buf s.p b j ≠ 0) ↔ _
    constructor
    · intro h
      refine ⟨fun j hj => ?_, fun hb => h s.p (Nat.lt_succ_self _) ?_⟩
      · have hne := h j (Nat.lt_succ_of_lt hj)
        rwa [Function.update_of_ne (Nat.ne_of_lt hj)] at hne
      · rw [Function.update_self, hb]
    · rintro ⟨h, hb⟩ j hj
      by_cases hjp : j = s.p
      · rw [hjp, Function.update_self]
        exact fun h₀ => hb h₀.symm
      · rw [Function.update_of_ne hjp]
        exact h j (by omega)
  · have hs := hr.space
    exact Function.update_of_ne (by omega) _ _

/-- A character is stored and the space for it is taken. -/
theorem put_takeSpace {α : Type} (hr : Room s) (hn : 0 < s.n) (f : Unit → Exec Frame α) :
  (put b >>= fun _ => takeSpace 1 >>= f) s = f () (s.after b)
  := by
  have hp : s.p < s.size := by
    have hs := hr.space
    omega
  have hput : put b s = .done () { s.after b with n := s.n } := by
    rw [put, store]
    simp [bind_apply, hp, Frame.after]
  have hlt : s.n < 2 ^ 32 := by
    have h₁ := hr.space
    have h₂ := hr.size
    omega
  have htake : takeSpace 1 { s.after b with n := s.n } = .done () (s.after b) := by
    rw [takeSpace, modify_apply]
    simp only [Frame.after, subWord_of_le hn hlt]
  rw [bind_done hput, bind_done htake]

/-- Storing outside the buffer is a fault. -/
theorem store_stop (h : s.p = s.size) :
  store b s = .stop (.wild "buf") s
  := by
  rw [store, bind_done (get_apply s), if_neg (by rw [h]; exact Nat.lt_irrefl _)]
  rfl

/-- Characters are stored from `p` on. -/
theorem putAll_apply (h : s.p + l.length ≤ s.size) :
  ∃ buf, putAll l s = .done () { s with buf := buf, p := s.p + l.length } ∧
    (∀ j, j < s.p → buf j = s.buf j) ∧ (∀ j, s.p + l.length ≤ j → buf j = s.buf j) ∧
    ((∀ j, s.p ≤ j → j < s.p + l.length → buf j ≠ 0) ↔ 0 ∉ l)
  := by
  induction l generalizing s with
  | nil =>
      refine ⟨s.buf, rfl, fun _ _ => rfl, fun _ _ => rfl, ?_⟩
      rw [List.length_nil]
      exact ⟨fun _ => List.not_mem_nil, fun _ j hj hj' => absurd hj (Nat.not_le.mpr hj')⟩
  | cons b l ih =>
      rw [List.length_cons] at h
      have hput : put b s =
          .done () { s with buf := Function.update s.buf s.p b, p := s.p + 1 } := by
        have hp : s.p < s.size := by omega
        rw [put, store]
        simp [bind_apply, hp]
      obtain ⟨buf, hl, hlow, hhigh, hzero⟩ :=
        @ih { s with buf := Function.update s.buf s.p b, p := s.p + 1 } (by simp only; omega)
      simp only at hl hlow hhigh hzero
      have hfirst : buf s.p = b := by
        rw [hlow s.p (Nat.lt_succ_self _), Function.update_self]
      refine ⟨buf, ?_, fun j hj => ?_, fun j hj => ?_, ?_⟩
      · rw [putAll, bind_done hput, hl, List.length_cons, Nat.add_right_comm, Nat.add_assoc]
      · rw [hlow j (Nat.lt_succ_of_lt hj), Function.update_of_ne (Nat.ne_of_lt hj)]
      · rw [List.length_cons] at hj
        rw [hhigh j (by omega), Function.update_of_ne (by omega)]
      · rw [List.length_cons, List.mem_cons, not_or, ← hzero]
        constructor
        · intro hall
          refine ⟨fun hb => hall s.p (Nat.le_refl _) (by omega) (hfirst.trans hb.symm), ?_⟩
          exact fun j hj hj' => hall j (Nat.le_of_succ_le hj) (by omega)
        · rintro ⟨hb, hall⟩ j hj hj'
          by_cases hjp : j = s.p
          · rw [hjp, hfirst]
            exact fun h₀ => hb h₀.symm
          · exact hall j (by omega) (by omega)

/-- Characters are stored; the space for them is not taken yet. -/
theorem putAll_returns (hr : Room s) (hl : l.length ≤ s.n) :
  Returns s (putAll l) fun _ q => q.n = s.n ∧ Stored s { q with n := s.n - l.length } l
  := by
  have hs := hr.space
  obtain ⟨buf, hput, hlow, hhigh, hzero⟩ := putAll_apply (s := s) (l := l) (by omega)
  refine ⟨(), _, hput, rfl, ⟨rfl, Nat.sub_add_cancel hl, rfl, ?_, ?_⟩, rfl, rfl⟩
  · rw [← hzero]
    change (∀ j, j < s.p + l.length → buf j ≠ 0) ↔ _
    constructor
    · intro h
      refine ⟨fun j hj => ?_, fun j _ hj => h j hj⟩
      rw [← hlow j hj]
      exact h j (Nat.lt_of_lt_of_le hj (Nat.le_add_right _ _))
    · rintro ⟨h, h'⟩ j hj
      by_cases hjp : j < s.p
      · rw [hlow j hjp]
        exact h j hjp
      · exact h' j (Nat.le_of_not_lt hjp) hj
  · exact fun j hj => hhigh j (by omega)

/-- The space for what was stored is taken. -/
theorem takeSpace_returns (hr : Room s) (hl : l.length ≤ s.n) (hn : q.n = s.n)
    (h : Stored s { q with n := s.n - l.length } l) :
  Returns q (takeSpace l.length) fun _ q => Stored s q l
  := by
  have hlt : s.n < 2 ^ 32 := by
    have h₁ := hr.space
    have h₂ := hr.size
    omega
  refine ⟨(), _, rfl, ?_⟩
  change Stored s { q with n := subWord q.n l.length } l
  rwa [hn, subWord_of_le hl hlt]

/-! ### Numbers and strings -/

/-- The flag of a hole. -/
theorem zeroFlag_returns (zero : Bool) (hi : IntBuf s.intBuf m) :
  Returns s (when (zero = true) (modify fun s =>
      { s with intBuf := .replicate intBufSize 0x30 ++ s.intBuf.drop intBufSize })) fun _ q =>
    Moved s q [] ∧ q.ap = s.ap ∧ IntBuf q.intBuf (if zero then intBufSize else m)
  := by
  have hm := (Stored.refl s).toMoved
  cases zero with
  | false => exact ⟨(), s, rfl, hm, rfl, hi⟩
  | true => exact ⟨(), _, rfl, ⟨hm.p, hm.n, hm.size, hm.clean, hm.frame⟩, rfl, hi.zero⟩

/-- The value and the state of the arguments after a number was read. -/
theorem vaNumber_apply {i : BitVec 32} {ap : List Arg} (hap : s.ap = .number i :: ap) :
  vaNumber s = .done i.toNat { s with ap := ap }
  := by
  rw [vaNumber, bind_done (get_apply s), hap]
  rfl

theorem vaString_apply {mem : List Byte} {ap : List Arg} (hap : s.ap = .string mem :: ap) :
  vaString s = .done (cstr mem) { s with ap := ap }
  := by
  rw [vaString, bind_done (get_apply s), hap]
  rfl

/-- The number of characters that are stored if `n` are asked for. -/
theorem clip_eq (bytes n : Nat) :
  clip true bytes n = min bytes n
  := by
  by_cases h : bytes > n
  · rw [clip, if_pos ⟨rfl, h⟩, Nat.min_eq_right (Nat.le_of_lt h)]
  · rw [clip, if_neg fun hn => h hn.2, Nat.min_eq_left (Nat.le_of_not_lt h)]

/-- A number is stored as far as the remaining space goes, if that is not more than `intBuf`
holds. -/
theorem number_returns {i : BitVec 32} {ap : List Arg} {hex : Bool} {width n : Nat}
    (hr : Room s) (hi : IntBuf s.intBuf m) (hap : s.ap = .number i :: ap)
    (hn : n = min (max (digitCount hex i.toNat) width) s.n) (hle : n ≤ intBufSize) :
  Returns s (number true hex width) fun _ q => q.ap = ap ∧
    IntBuf q.intBuf (max m (digitCount hex i.toNat)) ∧
    ∃ l, Moved s q l ∧ l.length = n ∧ (0 ∉ l ↔ n ≤ max m (digitCount hex i.toNat))
  := by
  obtain ⟨hcount, hi'⟩ := hi.uintToStr hex i
  refine .step (vaNumber_apply hap) (.get (.modify fun q hq => ?_))
  rw [clip_eq, hcount, ← hn]
  obtain ⟨hlen, hzero⟩ := hi'.slice hle
  have hqr : Room q := by
    rw [hq]
    exact ⟨hr.space, hr.size⟩
  have hqi : q.intBuf = (uintToStr s.intBuf intBufSize hex i.toNat).2 := by rw [hq]
  have hqn : q.n = s.n := by rw [hq]
  have hcopy : copyIntBuf n q =
      putAll (((uintToStr s.intBuf intBufSize hex i.toNat).2.drop (intBufSize - n)).take n) q := by
    rw [copyIntBuf, bind_done (get_apply q), if_pos hle, hqi]
  generalize ((uintToStr s.intBuf intBufSize hex i.toNat).2.drop (intBufSize - n)).take n = l
    at hlen hzero hcopy
  have hspace : l.length ≤ q.n := by
    rw [hlen, hn, hqn]
    exact Nat.min_le_right _ _
  have hput := putAll_returns hqr hspace
  rw [Returns, ← hcopy] at hput
  refine .bind hput ?_
  rintro - q₁ ⟨hn₁, hstored⟩
  have htake := takeSpace_returns hqr hspace hn₁ hstored
  rw [hlen] at htake
  refine htake.mono ?_
  rintro - q₂ h₂
  refine ⟨?_, ?_, l, ?_, hlen, hzero⟩
  · rw [h₂.ap, hq]
  · rw [h₂.intBuf, hqi]
    exact hi'
  · have hm := h₂.toMoved
    rw [hq] at hm
    exact ⟨hm.p, hm.n, hm.size, hm.clean, hm.frame⟩

theorem copyIntBuf_stops {n : Nat} (hn : intBufSize < n) :
  Stops s (copyIntBuf n) (.wild "intBuf") fun _ => True
  := by
  refine .step (get_apply s) ?_
  rw [if_neg (Nat.not_le.mpr hn)]
  exact ⟨s, rfl, trivial⟩

/-- A number that is wider than `intBuf` is read from outside it, if there is space. -/
theorem number_stops {i : BitVec 32} {ap : List Arg} {hex : Bool} {width : Nat}
    (hi : IntBuf s.intBuf m) (hap : s.ap = .number i :: ap)
    (hlt : intBufSize < min (max (digitCount hex i.toNat) width) s.n) :
  Stops s (number true hex width) (.wild "intBuf") fun _ => True
  := by
  obtain ⟨hcount, -⟩ := hi.uintToStr hex i
  refine .step (vaNumber_apply hap) (.step rfl (.step rfl (.first ?_)))
  rw [clip_eq, hcount]
  exact copyIntBuf_stops hlt

/-- A string is padded as far as the remaining space goes. -/
theorem pad_returns (hr : Room s) (width : Nat) :
  Returns s (pad true width) fun _ q => Stored s q (.replicate (min width s.n) 0x20)
  := by
  induction width generalizing s with
  | zero =>
      rw [Nat.zero_min]
      exact .pure (Stored.refl s)
  | succ width ih =>
      refine .get ?_
      by_cases hn : s.n = 0
      · rw [if_neg (by simp [hn]), hn, Nat.min_zero]
        exact .pure (Stored.refl s)
      · have hpos := Nat.pos_of_ne_zero hn
        rw [if_pos (.inl hn), Returns, put_takeSpace hr hpos]
        have hfirst := stored_after (b := 0x20) hr hpos
        have hlen : (s.after 0x20).n = s.n - 1 := rfl
        refine (ih (hfirst.room hr)).mono ?_
        rintro - q hq
        have hboth := hfirst.trans hq
        have hsum : min width (s.n - 1) + 1 = min (width + 1) s.n := by omega
        rwa [hlen, List.singleton_append, ← List.replicate_succ, hsum] at hboth

/-- The number of the characters of a string that are printed. -/
theorem length_cut (h : Hole) (str : List Byte) :
  h.limit str.length = (h.cut str).length
  := by
  unfold Hole.limit Hole.cut
  cases h.precision with
  | none => rfl
  | some precision =>
      simp only [List.length_take]
      split <;> omega

theorem take_cut (h : Hole) (str : List Byte) {k : Nat} (hk : k ≤ (h.cut str).length) :
  str.take k = (h.cut str).take k
  := by
  unfold Hole.cut at hk ⊢
  cases hp : h.precision with
  | none => rfl
  | some precision =>
      simp only [hp, List.length_take] at hk
      simp only [List.take_take, Nat.min_eq_left (Nat.le_trans hk (Nat.min_le_left _ _))]

/-- A string is stored as far as the remaining space goes. -/
theorem string_returns {mem : List Byte} {ap : List Arg} {h : Hole} (hr : Room s)
    (hap : s.ap = .string mem :: ap) :
  Returns s (string true h) fun c q => q.ap = ap ∧ q.intBuf = s.intBuf ∧
    (q.n = 0 ∨ c = h.rest) ∧
    ∃ l, Moved s q l ∧ l.length = min (max (h.cut (cstr mem)).length h.width) s.n ∧ 0 ∉ l
  := by
  refine .step (vaString_apply hap) ?_
  rw [length_cut]
  generalize hs₁ : { s with ap := ap } = s₁
  have hr₁ : Room s₁ := by
    rw [← hs₁]
    exact ⟨hr.space, hr.size⟩
  have hn₁ : s₁.n = s.n := by rw [← hs₁]
  have hsame : ∀ {q l}, Stored s₁ q l → q.ap = ap ∧ q.intBuf = s.intBuf ∧ Moved s q l := by
    intro q l hq
    obtain ⟨⟨h₁, h₂, h₃, h₄, h₅⟩, hi, ha⟩ := hq
    rw [← hs₁] at h₁ h₂ h₃ h₄ h₅ hi ha
    exact ⟨ha, hi, ⟨h₁, h₂, h₃, h₄, h₅⟩⟩
  have hpad : Returns s₁ (when (h.width > (h.cut (cstr mem)).length)
      (pad true (h.width - (h.cut (cstr mem)).length))) fun _ q =>
        Stored s₁ q (.replicate (min (h.width - (h.cut (cstr mem)).length) s₁.n) 0x20) := by
    by_cases hw : h.width > (h.cut (cstr mem)).length
    · rw [when_pos hw]
      exact pad_returns hr₁ _
    · rw [when_neg hw, Nat.sub_eq_zero_of_le (Nat.le_of_not_lt hw), Nat.zero_min]
      exact .pure (Stored.refl s₁)
  refine hpad.bind ?_
  rintro - q hq
  have hqn := hq.n
  rw [List.length_replicate] at hqn
  have hspaces : ∀ {k}, (0 : Byte) ∉ List.replicate k 0x20 := by
    intro k h₀
    exact absurd (List.eq_of_mem_replicate h₀) (by decide)
  refine .get ?_
  by_cases hfull : q.n = 0
  · rw [if_pos ⟨rfl, hfull⟩]
    obtain ⟨ha, hi, hm⟩ := hsame hq
    refine .pure ⟨ha, hi, .inl hfull, _, hm, ?_, hspaces⟩
    rw [List.length_replicate]
    omega
  · rw [if_neg fun hn => hfull hn.2, clip_eq]
    have hle : min (h.cut (cstr mem)).length q.n ≤ (h.cut (cstr mem)).length := Nat.min_le_left _ _
    have hlen : ((cstr mem).take (min (h.cut (cstr mem)).length q.n)).length
        = min (h.cut (cstr mem)).length q.n := by
      rw [take_cut h _ hle, List.length_take]
      omega
    have hspace : ((cstr mem).take (min (h.cut (cstr mem)).length q.n)).length ≤ q.n := by
      rw [hlen]
      exact Nat.min_le_right _ _
    have hqr := hq.room hr₁
    refine .bind (putAll_returns hqr hspace) ?_
    rintro - q₁ ⟨hn₁', hstored⟩
    have htake := takeSpace_returns hqr hspace hn₁' hstored
    rw [hlen] at htake
    refine htake.bind ?_
    rintro - q₂ hq₂
    obtain ⟨ha, hi, hm⟩ := hsame (hq.trans hq₂)
    refine .pure ⟨ha, hi, .inr rfl, _, hm, ?_, ?_⟩
    · rw [List.length_append, List.length_replicate, hlen]
      omega
    · rw [List.mem_append, not_or]
      exact ⟨hspaces, fun h₀ => zero_notMem_cstr mem (List.mem_of_mem_take h₀)⟩

end Fmt
