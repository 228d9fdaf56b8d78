import Manos.Fmt.Storing

/-!
# When formatting stays in the buffer

`Prints` follows a run of the formatter over the pieces of a format, in both directions: if the
text is shorter than the buffer and no number is wider than `intBuf`, the run ends at the end
of the text; if not, it ends with a full buffer, or not at all.  The zero after the text then
has no place in the buffer.
-/

namespace Fmt

open Exec

variable {s s₁ q : Frame} {l : List Byte} {b : Byte} {m k : Nat} {ps : List Piece} {a : Piece}
  {c : List Byte} {ap : List Arg}

/-- The pieces are shorter than the remaining space, and no number is wider than `intBuf`. -/
def Short (n : Nat) (ps : List Piece) : Prop :=
  textLength ps < n ∧ ∀ q ∈ ps, q.Fits

theorem textLength_cons (a : Piece) (ps : List Piece) :
  textLength (a :: ps) = a.length + textLength ps
  := rfl

/-- From `s`, in which `intBuf` has `m` characters, the program `x` prints the pieces. -/
structure Prints (s : Frame) (m : Nat) (ps : List Piece) (x : Exec Frame Unit) : Prop where
  short (h : Short s.n ps) : Returns s x fun _ q => ∃ l, Moved s q l ∧ l.length = textLength ps ∧
    (0 ∉ l ↔ Shown m ps)
  long (h : ¬ Short s.n ps) {q : Frame} (hx : x s = .done () q) :
    q.n = 0 ∧ q.size = s.size ∧ Room q

theorem Prints.congr {x y : Exec Frame Unit} (hx : x s = y s) (h : Prints s m ps y) :
  Prints s m ps x
  := by
  refine ⟨fun hs => ?_, fun hs q hq => h.long hs (hx.symm.trans hq)⟩
  have hshort := h.short hs
  rwa [Returns, ← hx] at hshort

/-- Nothing is left to print. -/
theorem Prints.nil {x : Exec Frame Unit} (hr : Room s) (hx : x s = .done () s) :
  Prints s m [] x
  := by
  constructor
  · intro
    exact ⟨(), s, hx, [], (Stored.refl s).toMoved, rfl, iff_of_true List.not_mem_nil trivial⟩
  · intro h q hq
    rw [hx] at hq
    cases hq
    refine ⟨?_, rfl, hr⟩
    by_contra hn
    exact h ⟨Nat.pos_of_ne_zero hn, nofun⟩

/-- A piece is printed before the others. -/
theorem Prints.cons {x y : Exec Frame Unit} (hx : x s = y s₁) (hm : Moved s s₁ l)
    (hl : l.length = min a.length s.n) (hfits : a.length < s.n → a.Fits)
    (hshown : a.length < s.n → (0 ∉ l ↔ a.Shown m)) (h : Prints s₁ (a.filled m) ps y) :
  Prints s m (a :: ps) x
  := by
  have hn := hm.n
  have hlen := textLength_cons a ps
  constructor
  · rintro ⟨hlt, hfit⟩
    have hla : l.length = a.length := by omega
    have hshort : Short s₁.n ps := ⟨by omega, fun q hq => hfit q (List.mem_cons_of_mem _ hq)⟩
    obtain ⟨⟨⟩, q, hq, l', hm', hl', hzero⟩ := h.short hshort
    refine ⟨(), q, hx.trans hq, l ++ l', hm.trans hm', ?_, ?_⟩
    · rw [List.length_append, hla, hl', hlen]
    · rw [List.mem_append, not_or, hzero, hshown (by omega)]
      rfl
  · intro hlong q hq
    have hlong' : ¬ Short s₁.n ps := by
      rintro ⟨hlt, hfit⟩
      apply hlong
      refine ⟨by omega, fun q hq => ?_⟩
      rcases List.mem_cons.mp hq with rfl | hq
      · exact hfits (by omega)
      · exact hfit q hq
    obtain ⟨hq₀, hsize, hroom⟩ := h.long hlong' (hx.symm.trans hq)
    exact ⟨hq₀, hsize.trans hm.size, hroom⟩

/-- The program stops, which is right only if the pieces do not fit. -/
theorem Prints.stop {x : Exec Frame Unit} {e : Fault} (hx : x s = .stop e q)
    (h : ¬ Short s.n ps) :
  Prints s m ps x
  := by
  constructor
  · exact fun hs => absurd hs h
  · intro _ q' hq
    rw [hx] at hq
    cases hq

/-- Any program that leaves a full buffer as it is prints pieces for which there is no
space. -/
theorem Prints.full {x : Exec Frame Unit} (hr : Room s) (hn : s.n = 0) (hx : x s = .done () s) :
  Prints s m ps x
  := by
  constructor
  · rintro ⟨hlt, -⟩
    rw [hn] at hlt
    cases hlt
  · intro _ q hq
    rw [hx] at hq
    cases hq
    exact ⟨hn, rfl, hr⟩

/-! ### The loop -/

/-- What a turn of the loop does after its test. -/
def resume (k : Nat) (c : List Byte) : Exec Frame Unit :=
  literals true c >>= fun x => directive true x >>= fun c => fmtLoop true k c

theorem fmtLoop_resume (hn : s.n ≠ 0) (hc : c ≠ []) :
  fmtLoop true (k + 1) c s = resume k c s
  := by
  rw [fmtLoop, bind_done (get_apply s), if_pos ⟨hn, hc⟩]
  rfl

/-- The loop ends when no space is left, or at the end of the format. -/
theorem fmtLoop_end {useN : Bool} (h : s.n = 0 ∨ c = []) :
  fmtLoop useN (k + 1) c s = .done () s
  := by
  rw [fmtLoop, bind_done (get_apply s), if_neg]
  · rfl
  · rintro ⟨hn, hc⟩
    exact h.elim hn hc

theorem resume_nil :
  resume (k + 1) [] s = .done () s
  := fmtLoop_end (.inr rfl)

/-- A character before the next `'%'`. -/
theorem resume_char (hr : Room s) (hn : s.n ≠ 0) (hb : b ≠ percent) :
  resume k (b :: c) s = resume k c (s.after b)
  := by
  have hliterals : literals true (b :: c) s = literals true c (s.after b) := by
    rw [literals, bind_done (get_apply s), if_pos ⟨.inl hn, hb⟩]
    exact put_takeSpace hr (Nat.pos_of_ne_zero hn) _
  rw [resume, resume, bind_apply, bind_apply, hliterals]

/-- The loop that copies characters stops at once. -/
theorem resume_stay (h : s.n = 0 ∨ b = percent) :
  resume k (b :: c) s = (directive true (b :: c) >>= fun c => fmtLoop true k c) s
  := by
  refine bind_done ?_
  rw [literals, bind_done (get_apply s), if_neg]
  · rfl
  · rintro ⟨hn | hn, hb⟩
    · exact h.elim hn hb
    · cases hn

/-- A turn whose pieces are printed by the rest of the loop. -/
theorem Prints.fmtLoop (hr : Room s) (hc : Consists c ap ps) (hk : c.length < k)
    (h : ∀ k', c.length < k' → Prints s m ps (resume k' c)) :
  Prints s m ps (fmtLoop true (k + 1) c)
  := by
  by_cases hn : s.n = 0
  · exact .full hr hn (fmtLoop_end (.inl hn))
  · by_cases hnil : c = []
    · subst hnil
      cases hc
      exact .nil hr (fmtLoop_end (.inr rfl))
    · exact .congr (fmtLoop_resume hn hnil) (h k hk)

/-! ### Holes -/

/-- The format after a hole is a part of the format at its end. -/
theorem rest_suffix (x : List Byte) :
  (parseHole x).rest <:+ x
  := by
  have hzero : (if (decide (x.head? = some 0x30)) = true then x.tail else x) <:+ x := by
    split
    · exact List.tail_suffix x
    · exact List.suffix_refl x
  unfold parseHole
  simp only
  generalize (if (decide (x.head? = some 0x30)) = true then x.tail else x) = y at hzero
  have hwidth := (List.dropWhile_suffix isDigit (l := y)).trans hzero
  generalize y.dropWhile isDigit = z at hwidth
  have hprec :
      (if (decide (z.head? = some 0x2e)) = true then z.tail.dropWhile isDigit else z) <:+ x := by
    split
    · exact ((List.dropWhile_suffix isDigit).trans (List.tail_suffix z)).trans hwidth
    · exact hwidth
  generalize (if (decide (z.head? = some 0x2e)) = true then z.tail.dropWhile isDigit else z) = w
    at hprec
  have htype : (w.dropWhile (· = 0x6c)).tail <:+ x :=
    ((List.tail_suffix _).trans (List.dropWhile_suffix _)).trans hprec
  split
  · exact htype
  · split
    · exact htype
    · split
      · exact htype
      · exact hprec

/-- A piece is printed by the first part of a program. -/
theorem Prints.bind {α : Type} {y : Exec Frame α} {f : α → Exec Frame Unit}
    (h : Returns s y fun v q => ∃ l, Moved s q l ∧ l.length = min a.length s.n ∧
      (a.length < s.n → a.Fits) ∧ (a.length < s.n → (0 ∉ l ↔ a.Shown m)) ∧
      Prints q (a.filled m) ps (f v)) :
  Prints s m (a :: ps) (y >>= f)
  := by
  obtain ⟨v, q, hy, l, hm, hl, hfits, hshown, hq⟩ := h
  exact .cons (bind_done hy) hm hl hfits hshown hq

/-- What follows a hole. -/
structure Follows (s : Frame) (ap : List Arg) (m : Nat) (rest : List Byte) (c : List Byte)
    (q : Frame) : Prop where
  next : q.n = 0 ∨ c = rest
  ap : q.ap = ap
  intBuf : IntBuf q.intBuf m
  room : Room q

theorem Follows.prints (hf : Follows s ap m rest c q)
    (h : ∀ {s : Frame} {k : Nat}, Room s → s.ap = ap → IntBuf s.intBuf m → rest.length < k →
      Prints s m ps (resume k rest)) (hc : Consists rest ap ps) (hk : rest.length < k) :
  Prints q m ps (Fmt.fmtLoop true (k + 1) c)
  := by
  rcases hf.next with hn | rfl
  · exact .full hf.room hn (fmtLoop_end (.inl hn))
  · exact .fmtLoop hf.room hc hk fun k' hk' => h hf.room hf.ap hf.intBuf hk'

/-- A hole without a conversion. -/
theorem hole_blank (hr : Room s) (hap : s.ap = ap) (hi : IntBuf s.intBuf m) {x : List Byte}
    (hc : (parseHole x).conv = none) :
  Returns s (hole true x) fun c q => ∃ l, Moved s q l ∧
    l.length = min (Piece.blank (parseHole x).zero).length s.n ∧ 0 ∉ l ∧
    Follows s ap ((Piece.blank (parseHole x).zero).filled m) (parseHole x).rest c q
  := by
  refine .bind (zeroFlag_returns (parseHole x).zero hi) ?_
  rintro - q ⟨hm, ha, hq⟩
  rw [hc]
  refine .pure ⟨[], hm, (Nat.zero_min _).symm, List.not_mem_nil, .inr rfl, ha.trans hap, hq, ?_⟩
  exact hm.room hr

/-- A hole for a string. -/
theorem hole_string (hr : Room s) {mem : List Byte} (hap : s.ap = .string mem :: ap)
    (hi : IntBuf s.intBuf m) {x : List Byte} (hc : (parseHole x).conv = some .string) :
  Returns s (hole true x) fun c q => ∃ l, Moved s q l ∧
    l.length = min (max ((parseHole x).cut (cstr mem)).length (parseHole x).width) s.n ∧ 0 ∉ l ∧
    Follows s ap (if (parseHole x).zero then intBufSize else m) (parseHole x).rest c q
  := by
  refine .bind (zeroFlag_returns (parseHole x).zero hi) ?_
  rintro - q ⟨hm, ha, hq⟩
  rw [hc]
  have hn := hm.n
  rw [List.length_nil, Nat.add_zero] at hn
  refine (string_returns (hm.room hr) (ha.trans hap)).mono ?_
  rintro c q' ⟨hap', hbuf, hnext, l, hm', hl, hzero⟩
  refine ⟨l, hm.trans hm', ?_, hzero, hnext, hap', hbuf ▸ hq, hm'.room (hm.room hr)⟩
  rw [hl, hn]

/-- A hole for a number, if `intBuf` is not left. -/
theorem hole_number (hr : Room s) {i : BitVec 32} (hap : s.ap = .number i :: ap)
    (hi : IntBuf s.intBuf m) {x : List Byte} {hex : Bool} {n : Nat}
    (hc : (parseHole x).conv = some (.number hex))
    (hn : n = min (max (digitCount hex i.toNat) (parseHole x).width) s.n) (hle : n ≤ intBufSize) :
  Returns s (hole true x) fun c q => ∃ l, Moved s q l ∧ l.length = n ∧
    (0 ∉ l ↔ n ≤ max (if (parseHole x).zero then intBufSize else m) (digitCount hex i.toNat)) ∧
    Follows s ap (max (if (parseHole x).zero then intBufSize else m) (digitCount hex i.toNat))
      (parseHole x).rest c q
  := by
  refine .bind (zeroFlag_returns (parseHole x).zero hi) ?_
  rintro - q ⟨hm, ha, hq⟩
  rw [hc]
  have hqn := hm.n
  rw [List.length_nil, Nat.add_zero] at hqn
  refine .bind (number_returns (hm.room hr) hq (ha.trans hap) (hqn ▸ hn) hle) ?_
  rintro - q' ⟨hap', hbuf, l, hm', hl, hzero⟩
  exact .pure ⟨l, hm.trans hm', hl, hzero, .inr rfl, hap', hbuf, hm'.room (hm.room hr)⟩

/-- A hole for a number for which `intBuf` is left. -/
theorem hole_stops {i : BitVec 32} (hap : s.ap = .number i :: ap) (hi : IntBuf s.intBuf m)
    {x : List Byte} {hex : Bool} (hc : (parseHole x).conv = some (.number hex))
    (hlt : intBufSize < min (max (digitCount hex i.toNat) (parseHole x).width) s.n) :
  Stops s (hole true x) (.wild "intBuf") fun _ => True
  := by
  refine .bind (zeroFlag_returns (parseHole x).zero hi) ?_
  rintro - q ⟨hm, ha, hq⟩
  have hqn := hm.n
  rw [List.length_nil, Nat.add_zero] at hqn
  rw [hc]
  exact (number_stops hq (ha.trans hap) (hqn ▸ hlt)).first

/-- What is done at a hole. -/
theorem directive_hole {useN : Bool} {x : List Byte} (hx : x.head? ≠ some percent) :
  directive useN (percent :: x) = hole useN x
  := by
  rw [directive, if_pos rfl, if_neg hx]

/-! ### The whole format -/

/-- The formatter prints the pieces of its format. -/
theorem prints (h : Consists c ap ps) (h₀ : 0 ∉ c) (hr : Room s) (hap : s.ap = ap)
    (hi : IntBuf s.intBuf m) (hk : c.length < k) :
  Prints s m ps (resume k c)
  := by
  have hrest : ∀ {x : List Byte}, 0 ∉ percent :: x → 0 ∉ (parseHole x).rest :=
    fun h₀ hmem => h₀ (List.mem_cons_of_mem _ ((rest_suffix _).mem hmem))
  have hlen : ∀ {x : List Byte} {k}, (percent :: x).length < k + 1 →
      (parseHole x).rest.length < k := by
    intro x k hk
    have := (rest_suffix x).length_le
    rw [List.length_cons] at hk
    omega
  induction h generalizing s m k with
  | done =>
      obtain ⟨k, rfl⟩ := Nat.exists_eq_succ_of_ne_zero (Nat.ne_of_gt hk)
      exact .nil hr resume_nil
  | @char b c ap ps hb h ih =>
      obtain ⟨k, rfl⟩ := Nat.exists_eq_succ_of_ne_zero (Nat.ne_zero_of_lt hk)
      by_cases hn : s.n = 0
      · refine .full hr hn ((resume_stay (.inl hn)).trans ?_)
        rw [directive, if_neg hb]
        exact fmtLoop_end (.inl hn)
      · have hstored := stored_after (b := b) hr (Nat.pos_of_ne_zero hn)
        have hb₀ : b ≠ 0 := fun hb => h₀ (hb ▸ List.mem_cons_self)
        refine .cons (resume_char hr hn hb) hstored.toMoved ?_ (fun _ => trivial) (fun _ => ?_)
          (ih (fun hmem => h₀ (List.mem_cons_of_mem _ hmem)) (hstored.room hr) hap hi
            (Nat.lt_of_succ_lt hk))
        · rw [List.length_singleton, Piece.length]
          omega
        · exact iff_of_true (fun hmem => hb₀ (List.mem_singleton.mp hmem).symm) trivial
  | @percent c ap ps h ih =>
      obtain ⟨k, rfl⟩ := Nat.exists_eq_succ_of_ne_zero (Nat.ne_zero_of_lt hk)
      have hdirective : directive true (percent :: percent :: c)
          = (put percent >>= fun _ => takeSpace 1 >>= fun _ => pure c) := by
        rw [directive, if_pos rfl, if_pos List.head?_cons]
        rfl
      have hlt : c.length < k := by
        rw [List.length_cons, List.length_cons] at hk
        omega
      by_cases hn : s.n = 0
      · have hfull : s.p = s.size := by
          have hs := hr.space
          omega
        refine .stop (e := .wild "buf") (q := s) ((resume_stay (.inr rfl)).trans ?_) ?_
        · rw [hdirective]
          exact bind_stop (bind_stop (bind_stop (store_stop hfull)))
        · rintro ⟨hlt, -⟩
          rw [hn] at hlt
          cases hlt
      · have hstored := stored_after (b := percent) hr (Nat.pos_of_ne_zero hn)
        refine .cons (y := Fmt.fmtLoop true (k + 1) c) ((resume_stay (.inr rfl)).trans ?_)
          hstored.toMoved ?_ (fun _ => trivial) (fun _ => ?_)
          (.fmtLoop (hstored.room hr) h hlt fun k' hk' => ih (fun hmem => h₀ (List.mem_cons_of_mem _
            (List.mem_cons_of_mem _ hmem))) (hstored.room hr) hap hi hk')
        · rw [hdirective]
          refine bind_done ?_
          rw [put_takeSpace hr (Nat.pos_of_ne_zero hn)]
          rfl
        · rw [List.length_singleton, Piece.length]
          omega
        · exact iff_of_true (by decide) trivial
  | @blank x ap ps hx hc h ih =>
      obtain ⟨k, rfl⟩ := Nat.exists_eq_succ_of_ne_zero (Nat.ne_zero_of_lt hk)
      refine .congr (resume_stay (.inr rfl)) ?_
      rw [directive_hole hx]
      refine .bind ((hole_blank hr hap hi hc).mono ?_)
      rintro c q ⟨l, hm, hl, hzero, hf⟩
      refine ⟨l, hm, hl, fun _ => trivial, fun _ => iff_of_true hzero trivial, ?_⟩
      exact hf.prints (fun hr' hap' hi' hk' => ih (hrest h₀) hr' hap' hi' hk') h (hlen hk)
  | @number x i hex ap ps hx hc h ih =>
      obtain ⟨k, rfl⟩ := Nat.exists_eq_succ_of_ne_zero (Nat.ne_zero_of_lt hk)
      have hle := digitCount_le hex i
      refine .congr (resume_stay (.inr rfl)) ?_
      rw [directive_hole hx]
      by_cases hbytes : min (max (digitCount hex i.toNat) (parseHole x).width) s.n ≤ intBufSize
      · refine .bind ((hole_number hr hap hi hc rfl hbytes).mono ?_)
        rintro c q ⟨l, hm, hl, hzero, hf⟩
        refine ⟨l, hm, hl, fun hlt => ?_, fun hlt => hzero.trans ?_, ?_⟩
        · rw [Piece.length] at hlt
          rw [Piece.Fits]
          omega
        · rw [Piece.length] at hlt
          rw [Piece.Shown, Piece.filled, Nat.min_eq_left (Nat.le_of_lt hlt), Nat.max_le]
          exact and_iff_right (Nat.le_max_right _ _)
        · exact hf.prints (fun hr' hap' hi' hk' => ih (hrest h₀) hr' hap' hi' hk') h (hlen hk)
      · obtain ⟨q, hstop, -⟩ := hole_stops hap hi hc (Nat.lt_of_not_le hbytes)
        refine .stop (bind_stop hstop) ?_
        rintro ⟨hlt, hfit⟩
        have hwidth := hfit _ List.mem_cons_self
        rw [Piece.Fits] at hwidth
        rw [intBufSize] at hbytes hwidth
        omega
  | @string x mem ap ps hx hc h ih =>
      obtain ⟨k, rfl⟩ := Nat.exists_eq_succ_of_ne_zero (Nat.ne_zero_of_lt hk)
      refine .congr (resume_stay (.inr rfl)) ?_
      rw [directive_hole hx]
      refine .bind ((hole_string hr hap hi hc).mono ?_)
      rintro c q ⟨l, hm, hl, hzero, hf⟩
      refine ⟨l, hm, hl, fun _ => trivial, fun _ => iff_of_true hzero trivial, ?_⟩
      exact hf.prints (fun hr' hap' hi' hk' => ih (hrest h₀) hr' hap' hi' hk') h (hlen hk)

/-! ### The result -/

/-- `fmtVsnprintf` returns for a buffer of `n` bytes, and neither stores outside it nor loads
outside `intBuf`.  It returns the index of a zero in the buffer, and the counter holds the
space that is left. -/
def Bounded (buf : Nat → Byte) (n : Nat) (ap : List Arg) (k : Nat) (fmt : List Byte) : Prop :=
  Returns (start buf n ap) (fmtVsnprintf k fmt) fun ret q =>
    ret < n ∧ q.buf ret = 0 ∧ ret + q.n = n ∧ ∀ j, n ≤ j → q.buf j = buf j

/-- The same, and the zero is the first one in the buffer. -/
def BoundedString (buf : Nat → Byte) (n : Nat) (ap : List Arg) (k : Nat) (fmt : List Byte) : Prop :=
  Returns (start buf n ap) (fmtVsnprintf k fmt) fun ret q =>
    (ret < n ∧ q.buf ret = 0 ∧ ret + q.n = n ∧ ∀ j, n ≤ j → q.buf j = buf j) ∧
      ∀ j, j < ret → q.buf j ≠ 0

theorem prints_start {buf : Nat → Byte} {n : Nat} {fmt : List Byte} (hn : n < 2 ^ 32)
    (h : Consists (cstr fmt) ap ps) (hk : fmt.length < k) :
  Prints (start buf n ap) 0 ps (Fmt.fmtLoop true (k + 1) (cstr fmt))
  := by
  have hr : Room (start buf n ap) := ⟨Nat.zero_add n, hn⟩
  have hlen : (cstr fmt).length < k :=
    Nat.lt_of_le_of_lt (List.takeWhile_prefix _).length_le hk
  exact .fmtLoop hr h hlen fun k' hk' =>
    prints h (zero_notMem_cstr fmt) hr rfl intBuf_start hk'

/-- A text that is short enough is formatted within the bounds; it has a zero in it exactly
when a number is printed wider than what is in `intBuf`. -/
theorem returns_of_short {buf : Nat → Byte} {n : Nat} {fmt : List Byte} (hn : n < 2 ^ 32)
    (h : Consists (cstr fmt) ap ps) (hk : fmt.length < k) (hs : Short n ps) :
  Returns (start buf n ap) (fmtVsnprintf (k + 1) fmt) fun ret q =>
    ret = textLength ps ∧
      (ret < n ∧ q.buf ret = 0 ∧ ret + q.n = n ∧ ∀ j, n ≤ j → q.buf j = buf j) ∧
      ((∀ j, j < ret → q.buf j ≠ 0) ↔ Shown 0 ps)
  := by
  refine .bind ((prints_start hn h hk).short hs) ?_
  rintro - q ⟨l, hm, hl, hzero⟩
  have hp : q.p = textLength ps := by
    rw [hm.p, hl]
    exact Nat.zero_add _
  have hsize : q.size = n := hm.size
  have hlt : q.p < q.size := by
    rw [hp, hsize]
    exact hs.1
  have hstore : store 0 q = .done () { q with buf := Function.update q.buf q.p 0 } := by
    rw [store, bind_done (get_apply q), if_pos hlt]
    rfl
  refine .step hstore (.get (.pure ?_))
  have hroom := (hm.room ⟨Nat.zero_add n, hn⟩).space
  refine ⟨hp, ⟨hsize ▸ hlt, Function.update_self _ _ _, hroom.trans hsize, fun j hj => ?_⟩, ?_⟩
  · change Function.update q.buf q.p 0 j = buf j
    rw [Function.update_of_ne (by omega)]
    exact hm.frame j hj
  · change (∀ j, j < q.p → Function.update q.buf q.p 0 j ≠ 0) ↔ _
    have hclean : Clean q ↔ 0 ∉ l := by
      refine hm.clean.trans (and_iff_right ?_)
      intro j hj
      cases hj
    rw [← hzero, ← hclean]
    constructor
    · intro hall j hj
      have hne := hall j hj
      rwa [Function.update_of_ne (Nat.ne_of_lt hj)] at hne
    · intro hall j hj
      rw [Function.update_of_ne (Nat.ne_of_lt hj)]
      exact hall j hj

/-- For a text that is not short enough there is no place for the zero. -/
theorem short_of_returns {buf : Nat → Byte} {n : Nat} {fmt : List Byte} {Q : Nat → Frame → Prop}
    (hn : n < 2 ^ 32) (h : Consists (cstr fmt) ap ps) (hk : fmt.length < k)
    (hr : Returns (start buf n ap) (fmtVsnprintf (k + 1) fmt) Q) :
  Short n ps
  := by
  by_contra hs
  obtain ⟨ret, q, hret, -⟩ := hr
  obtain ⟨⟨⟩, q₁, hloop, hrest⟩ := bind_eq_done_iff.mp hret
  obtain ⟨hfull, -, hroom⟩ := (prints_start hn h hk).long hs hloop
  have hp : q₁.p = q₁.size := by
    rw [← hroom.space, hfull, Nat.add_zero]
  rw [bind_stop (store_stop hp)] at hrest
  cases hrest

/-- What is printed from `intBuf` alone fits in it. -/
theorem Shown.fits (h : Shown m ps) (hm : m ≤ intBufSize) :
  ∀ q ∈ ps, q.Fits
  := by
  induction ps generalizing m with
  | nil => nofun
  | cons a ps ih =>
      obtain ⟨ha, hps⟩ := h
      have hfilled : a.filled m ≤ intBufSize := by
        have hif : ∀ zero : Bool, (if zero then intBufSize else m) ≤ intBufSize := by
          intro zero
          split
          · exact Nat.le_refl _
          · exact hm
        cases a with
        | char b => exact hm
        | blank zero => exact hif zero
        | number zero width hex i =>
            exact Nat.max_le.mpr ⟨hif zero, Nat.le_trans (digitCount_le hex i) (by decide)⟩
        | string zero width s => exact hif zero
      intro q hq
      rcases List.mem_cons.mp hq with rfl | hq
      · cases q with
        | number zero width hex i => exact Nat.le_trans ha hfilled
        | char b => trivial
        | blank zero => trivial
        | string zero width s => trivial
      · exact ih hps hfilled q hq

/-- Formatting stays in the buffer, and ends it with a zero whose index is returned, exactly
when the text is shorter than the buffer and no number is wider than `intBuf`.  The zero is
the first one exactly when, moreover, no number is wider than what has been stored in
`intBuf`. -/
theorem bounded_iff {buf : Nat → Byte} {n : Nat} {fmt : List Byte} {ap : List Arg}
    {ps : List Piece} {k : Nat} (hn : n < 2 ^ 32) (h : Consists (cstr fmt) ap ps)
    (hk : fmt.length + 1 < k) :
  (Bounded buf n ap k fmt ↔ textLength ps < n ∧ ∀ q ∈ ps, q.Fits) ∧
    (BoundedString buf n ap k fmt ↔ textLength ps < n ∧ Shown 0 ps)
  := by
  obtain ⟨k, rfl⟩ := Nat.exists_eq_succ_of_ne_zero (Nat.ne_zero_of_lt hk)
  have hk' : fmt.length < k := Nat.lt_of_succ_lt_succ hk
  refine ⟨⟨short_of_returns hn h hk', fun hs => ?_⟩, ⟨fun hb => ?_, fun hs => ?_⟩⟩
  · exact (returns_of_short hn h hk' hs).mono fun _ _ hq => hq.2.1
  · have hshort := short_of_returns hn h hk' hb
    refine ⟨hshort.1, ?_⟩
    obtain ⟨ret, q, hret, -, hzero⟩ := hb
    exact ((returns_of_short hn h hk' hshort).done hret).2.2.mp hzero
  · have hshort : Short n ps := ⟨hs.1, hs.2.fits (Nat.zero_le _)⟩
    refine (returns_of_short hn h hk' hshort).mono ?_
    rintro ret q ⟨-, hq, hzero⟩
    exact ⟨hq, hzero.mpr hs.2⟩

/-- The format `x=%3d` with the argument 7 and a buffer of eight bytes: it is printed inside the
buffer, with zero bytes before the digit. -/
theorem bounded_iff_number :
  Bounded (fun _ => 0) 8 [.number 7] 9 [0x78, 0x3d, 0x25, 0x33, 0x64] ∧
    ¬ BoundedString (fun _ => 0) 8 [.number 7] 9 [0x78, 0x3d, 0x25, 0x33, 0x64]
  := by
  have h : Consists (cstr [0x78, 0x3d, 0x25, 0x33, 0x64]) [.number 7]
      [.char 0x78, .char 0x3d, .number false 3 false 7] :=
    .char (by decide) (.char (by decide) (.number (by decide) (by decide) .done))
  obtain ⟨hbounded, hstring⟩ := @bounded_iff (fun _ => 0) 8 _ _ _ 9 (by decide) h (by decide)
  refine ⟨hbounded.mpr ⟨by decide, ?_⟩, fun hs => ?_⟩
  · simp [Piece.Fits, intBufSize]
  · obtain ⟨-, -, -, hshown, -⟩ := hstring.mp hs
    rw [Piece.Shown] at hshown
    revert hshown
    decide

/-- For a buffer of one byte and the format `a` the zero is stored after the buffer. -/
theorem exact_fit_overruns :
  ¬ ∀ (buf : Nat → Byte) (n : Nat) (fmt : List Byte) (ap : List Arg) (ps : List Piece), 1 ≤ n →
    n < 2 ^ 32 → Consists (cstr fmt) ap ps → ∃ N, ∀ k, N ≤ k → Bounded buf n ap k fmt
  := by
  intro hclaim
  have h : Consists (cstr [0x61]) [] [.char 0x61] := .char (by decide) .done
  obtain ⟨N, hN⟩ := hclaim (fun _ => 0) 1 [0x61] [] _ (Nat.le_refl 1) (by decide) h
  have hbounded := hN (N + 2 + 1) (by omega)
  have hshort := short_of_returns (by decide) h (Nat.lt_add_left N (by decide)) hbounded
  exact absurd hshort.1 (by decide)

end Fmt
