import Manos.Fmt.Turns

/-!
# Formatting without a limit

`fmtSprintf` starts with the length of the text that was in the buffer as its count, although it
has no limit: the formatter ends before a turn at which that many characters were stored.
-/

namespace Fmt

open Exec

/-! ### The pieces that are reached -/

/-- Whether a turn starts behind the pieces. -/
def startsTurn : Bool → List Piece → Bool
  | start, [] => start
  | _, a :: ps => startsTurn a.endsTurn ps

section

variable {start : Bool} {n m : ℕ} {ps as bs : List Piece}

theorem textLength_append (as bs : List Piece) :
  textLength (as ++ bs) = textLength as + textLength bs
  := by
  rw [textLength, textLength, textLength, List.map_append, List.sum_append]

theorem prefix_reached (start : Bool) (n : ℕ) (ps : List Piece) :
  reached start n ps <+: ps
  := by
  induction ps generalizing start n with
  | nil => exact List.prefix_refl _
  | cons a ps ih =>
      rw [reached]
      split
      · exact List.nil_prefix
      · exact List.cons_prefix_cons.mpr ⟨rfl, ih _ _⟩

/-- With a count that is larger than what they print, all pieces are reached. -/
theorem reached_all (hn : n < 2 ^ 32) (h : textLength ps < n) :
  reached start n ps = ps
  := by
  induction ps generalizing start n with
  | nil => rfl
  | cons a ps ih =>
      rw [textLength_cons] at h
      have hword := subWord_of_le (Nat.le_of_lt (Nat.lt_of_le_of_lt (Nat.le_add_right _ _) h)) hn
      rw [reached, if_neg (by omega), ih (subWord_lt _ _) (by omega)]

/-- Either no turn starts when the count is used up, or the pieces before such a turn are
reached. -/
theorem reached_cases (hm : m < 2 ^ 32) (hlen : textLength ps < 2 ^ 32) :
  (reached start m ps = ps ∧ ∀ as bs, ps = as ++ bs → bs ≠ [] → startsTurn start as = true →
      textLength as ≠ m)
    ∨ ∃ as bs, ps = as ++ bs ∧ bs ≠ [] ∧ startsTurn start as = true ∧ textLength as = m
      ∧ reached start m ps = as
  := by
  induction ps generalizing start m with
  | nil =>
      refine .inl ⟨rfl, ?_⟩
      intro as bs hnil hbs
      exact absurd (List.append_eq_nil_iff.mp hnil.symm).2 hbs
  | cons a ps ih =>
      rw [textLength_cons] at hlen
      by_cases hstop : start = true ∧ m = 0
      · refine .inr ⟨[], a :: ps, rfl, List.cons_ne_nil _ _, hstop.1, hstop.2.symm, ?_⟩
        rw [reached, if_pos hstop]
      · rw [reached, if_neg hstop]
        rcases @ih a.endsTurn _ (subWord_lt m a.length) (by omega) with
          ⟨hall, hne⟩ | ⟨as, bs, rfl, hbs, hturn, has, hreached⟩
        · refine .inl ⟨by rw [hall], ?_⟩
          intro as bs hsplit hbs hturn has
          cases as with
          | nil => exact hstop ⟨hturn, has.symm⟩
          | cons a' as =>
              obtain ⟨rfl, hps⟩ := List.cons_eq_cons.mp hsplit
              rw [textLength_cons] at has
              apply hne as bs hps hbs hturn
              rw [subWord_of_le (by omega) hm]
              omega
        · refine .inr ⟨a :: as, bs, rfl, hbs, hturn, ?_, by rw [hreached]⟩
          rw [textLength_append, has] at hlen
          rw [textLength_cons, has]
          rw [subWord] at hlen ⊢
          omega

/-- As much is printed as without a count exactly if nothing is printed behind a turn at which
the count is used up. -/
theorem textLength_reached_iff (hm : m < 2 ^ 32) (hlen : textLength ps < 2 ^ 32) :
  textLength (reached true m ps) = textLength ps ↔ ∀ as bs, ps = as ++ bs → bs ≠ [] →
    startsTurn true as = true → textLength as = m → textLength bs = 0
  := by
  rcases reached_cases hm hlen with ⟨hall, hne⟩ | ⟨as, bs, hsplit, hbs, hturn, has, hreached⟩
  · rw [hall]
    constructor
    · intro _ as bs hsplit hbs hturn has
      exact absurd has (hne as bs hsplit hbs hturn)
    · intro _
      rfl
  · have hsum := textLength_append as bs
    rw [← hsplit] at hsum
    rw [hreached]
    constructor
    · intro heq as' bs' hsplit' _ _ has'
      have hsum' := textLength_append as' bs'
      rw [← hsplit'] at hsum'
      omega
    · intro h
      have := h as bs hsplit hbs hturn has
      omega

/-- If what is reached is as long as all pieces, it prints the same. -/
theorem printed_reached (h : textLength (reached start m ps) = textLength ps)
    (hfits : ∀ q ∈ ps, q.Fits) {intBuf : List Byte} (hbuf : intBuf.length = intBufSize + 1) :
  printed intBuf (reached start m ps) = printed intBuf ps
  := by
  obtain ⟨bs, hbs⟩ := prefix_reached start m ps
  have hprefix : ∀ as bs intBuf, printed intBuf as <+: printed intBuf (as ++ bs) := by
    intro as bs intBuf
    induction as generalizing intBuf with
    | nil => exact List.nil_prefix
    | cons a as ih => exact (List.prefix_append_right_inj _).mpr (ih _)
  have hpre := hprefix (reached start m ps) bs intBuf
  rw [hbs] at hpre
  apply hpre.eq_of_length
  rw [length_printed hbuf hfits, length_printed hbuf, h]
  intro q hq
  exact hfits q ((prefix_reached start m ps).subset hq)

end

/-! ### The functions -/

section

variable {useN : Bool} {s : Frame} {fmt mem : List Byte} {ap : List Arg} {ps : List Piece}
  {k n : ℕ}

/-- What the formatter prints is stored with a zero behind it. -/
theorem fmtVsnprintfInternal_text (hc : Consists (cstr fmt) ap ps) (hap : s.ap = ap)
    (h : Ready useN s ps) (hroom : s.p + textLength ps < s.size) (hk : fmt.length ≤ k) :
  Returns s (fmtVsnprintfInternal useN (k + 1) fmt) fun r q =>
    r = s.p + textLength (reached true s.n ps) ∧ q.buf r = 0
      ∧ q.text = s.text ++ printed s.intBuf (reached true s.n ps)
  := by
  have hfmt : (cstr fmt).length ≤ k := Nat.le_trans (List.takeWhile_prefix _).length_le hk
  have hfits : ∀ q ∈ reached true s.n ps, q.Fits :=
    fun q hq => h.fits q ((prefix_reached true s.n ps).subset hq)
  have hle : textLength (reached true s.n ps) ≤ textLength ps := by
    obtain ⟨bs, hbs⟩ := prefix_reached true s.n ps
    have hsum := textLength_append (reached true s.n ps) bs
    rw [hbs] at hsum
    omega
  rw [fmtVsnprintfInternal]
  apply (fmtLoop_wrote hc hfmt fun k' hk' => turn_wrote hc hap h hk').bind
  rintro _ q hq
  have hp := hq.p
  rw [length_printed h.intBuf hfits] at hp
  have hlt : q.p < q.size := by
    rw [hq.size]
    omega
  apply (store_text hlt).bind
  rintro _ q' ⟨hp', htext, hzero⟩
  refine ⟨q'.p, q', rfl, hp'.trans hp, ?_, htext.trans hq.text⟩
  rw [hp', hzero]

/-- With a limit that is larger than what they print, all pieces are printed. -/
theorem fmtSnprintf_text (buf : ℕ → Byte) (hc : Consists (cstr fmt) ap ps)
    (hfits : ∀ q ∈ ps, q.Fits) (hn : n < 2 ^ 32) (hlt : textLength ps < n) (hk : fmt.length ≤ k) :
  Returns (start buf n ap) (fmtSnprintf (k + 1) fmt) fun r q =>
    r = textLength ps ∧ q.buf r = 0 ∧ q.text = printed (.replicate (intBufSize + 1) 0) ps
  := by
  have hready : Ready true (start buf n ap) ps := by
    refine ⟨List.length_replicate, hfits, ?_, hn, hn, fun _ => hlt⟩
    show 0 + textLength ps ≤ n
    omega
  have hroom : (start buf n ap).p + textLength ps < (start buf n ap).size := by
    show 0 + textLength ps < n
    omega
  apply (fmtVsnprintfInternal_text hc rfl hready hroom hk).mono
  rintro r q ⟨hr, hzero, htext⟩
  have hall : reached true (start buf n ap).n ps = ps := reached_all hn hlt
  rw [hall] at hr htext
  exact ⟨hr.trans (Nat.zero_add _), hzero, htext⟩

/-- Without a limit the pieces are printed that the length of the text before lets be reached. -/
theorem fmtSprintf_reached (hc : Consists (cstr fmt) ap ps) (hfits : ∀ q ∈ ps, q.Fits)
    (hmem : mem.length < 2 ^ 32) (h₀ : 0 ∈ mem) (hroom : textLength ps < mem.length)
    (hk : fmt.length ≤ k) :
  Returns (start (fun i => mem.getD i 0) mem.length ap) (fmtSprintf (k + 1) fmt) fun r q =>
    r = textLength (reached true (cstr mem).length ps) ∧ q.buf r = 0
      ∧ q.text = printed (.replicate (intBufSize + 1) 0) (reached true (cstr mem).length ps)
  := by
  have hlen := (List.getElem?_eq_some_iff.mp (getElem?_length_cstr h₀)).1
  apply Returns.step (strlen_cstr h₀ rfl rfl)
  apply Returns.modify
  rintro s rfl
  have hready : Ready false { start (fun i => mem.getD i 0) mem.length ap with
      n := (cstr mem).length } ps := by
    refine ⟨List.length_replicate, hfits, ?_, hmem, Nat.lt_trans hlen hmem, nofun⟩
    show 0 + textLength ps ≤ mem.length
    omega
  apply (fmtVsnprintfInternal_text hc rfl hready _ hk).mono
  · rintro r q ⟨hr, hzero, htext⟩
    exact ⟨hr.trans (Nat.zero_add _), hzero, htext⟩
  · show 0 + textLength ps < mem.length
    omega

/-- Without space that remains nothing is stored. -/
theorem fmtVsnprintfInternal_zero {s : Frame} (hn : s.n = 0) (hroom : s.p < s.size) (useN : Bool) :
  Returns s (fmtVsnprintfInternal useN (k + 1) fmt) fun r q => r = s.p ∧ q.text = s.text
  := by
  obtain ⟨_, q, hstore, hp, htext, -⟩ := store_text hroom
  apply Returns.step (fmtLoop_end (.inl hn))
  apply Returns.step hstore
  exact ⟨q.p, q, rfl, hp, htext⟩

/-- Over an empty text nothing is stored. -/
theorem fmtSprintf_empty (hmem : mem.head? = some 0) (k : ℕ) (fmt : List Byte) (ap : List Arg) :
  Returns (start (fun i => mem.getD i 0) mem.length ap) (fmtSprintf (k + 1) fmt) fun r q =>
    r = 0 ∧ q.text = []
  := by
  obtain ⟨rest, rfl⟩ := List.head?_eq_some_iff.mp hmem
  have hlen : (cstr (0 :: rest)).length = 0 := by
    rw [cstr, List.takeWhile_cons_of_neg (by decide), List.length_nil]
  apply Returns.step (strlen_cstr List.mem_cons_self rfl rfl)
  apply Returns.modify
  rintro s rfl
  exact fmtVsnprintfInternal_zero hlen (Nat.succ_pos rest.length) false

theorem strlen_stops (h : ∀ i < s.size, s.buf i ≠ 0) :
  strlen s = .stop (.wild "buf") s
  := by
  have hfind : ((List.range s.size).find? fun i => s.buf i = 0) = none := by
    rw [List.find?_eq_none]
    intro i hi
    rw [decide_eq_true_eq]
    exact h i (List.mem_range.mp hi)
  rw [strlen, bind_done (get_apply s), hfind]
  rfl

/-- Without a zero in the memory its end is passed. -/
theorem zero_mem_of_returns {Q : ℕ → Frame → Prop}
    (h : Returns (start (fun i => mem.getD i 0) mem.length ap) (fmtSprintf k fmt) Q) :
  0 ∈ mem
  := by
  by_contra h₀
  obtain ⟨r, q, hrun, -⟩ := h
  have hne : ∀ i < mem.length, mem.getD i 0 ≠ 0 := by
    intro i hi hzero
    rw [List.getD_eq_getElem _ _ hi] at hzero
    exact h₀ (hzero ▸ List.getElem_mem hi)
  have hstop := strlen_stops (s := start (fun i => mem.getD i 0) mem.length ap) hne
  rw [fmtSprintf, bind_stop hstop] at hrun
  cases hrun

/-- `fmtSprintf` stores in the memory what `fmtSnprintf` stores if its limit is larger, with a
zero behind it, and returns the same. -/
def LikeSnprintf (mem fmt : List Byte) (ap : List Arg) : Prop :=
  ∃ k₀, ∀ k ≥ k₀, ∀ (buf : ℕ → Byte) (n r : ℕ) (q : Frame), n < 2 ^ 32 → r < n →
    fmtSnprintf k fmt (start buf n ap) = .done r q →
    Returns (start (fun i => mem.getD i 0) mem.length ap) (fmtSprintf k fmt) fun r' q' =>
      r' = r ∧ q'.text = q.text ∧ q'.buf r' = q.buf r

/-- If no number is wider than `intBuf`, the two are alike exactly if as much is reached without a
limit as there is. -/
theorem likeSnprintf_iff_reached (hc : Consists (cstr fmt) ap ps) (hfits : ∀ q ∈ ps, q.Fits)
    (hmem : mem.length < 2 ^ 32) (hroom : textLength ps < mem.length) :
  LikeSnprintf mem fmt ap
    ↔ 0 ∈ mem ∧ textLength (reached true (cstr mem).length ps) = textLength ps
  := by
  constructor
  · rintro ⟨k₀, hlike⟩
    have hk : fmt.length ≤ k₀ + fmt.length + 1 := by omega
    obtain ⟨r, q, hrun, rfl, -⟩ := fmtSnprintf_text (fun _ => 0) hc hfits
      (Nat.lt_of_le_of_lt hroom hmem) (Nat.lt_succ_self _) hk
    have hsprintf := hlike _ (by omega) _ _ _ q (Nat.lt_of_le_of_lt hroom hmem)
      (Nat.lt_succ_self _) hrun
    have hzero := zero_mem_of_returns hsprintf
    obtain ⟨r', q', hrun', rfl, -⟩ := hsprintf
    exact ⟨hzero, ((fmtSprintf_reached hc hfits hmem hzero hroom hk).done hrun').1.symm⟩
  · rintro ⟨hzero, hreached⟩
    refine ⟨fmt.length + 2, ?_⟩
    intro k hk buf n r q hn hr hrun
    obtain ⟨k, rfl⟩ := Nat.exists_eq_succ_of_ne_zero (Nat.ne_zero_of_lt hk)
    have hk : fmt.length < k := by omega
    have hreturns : Returns (start buf n ap) (fmtVsnprintf (k + 1) fmt) fun _ _ => True :=
      ⟨r, q, hrun, trivial⟩
    have hlt := (short_of_returns hn hc hk hreturns).1
    obtain ⟨rfl, hend, htext⟩ := (fmtSnprintf_text buf hc hfits hn hlt hk.le).done hrun
    apply (fmtSprintf_reached hc hfits hmem hzero hroom hk.le).mono
    rintro r' q' ⟨hr', hend', htext'⟩
    rw [hreached] at hr'
    rw [printed_reached hreached hfits List.length_replicate] at htext'
    exact ⟨hr', htext'.trans htext.symm, hend'.trans hend.symm⟩

/-- `fmtSprintf` is like `fmtSnprintf` exactly if there is a text in the buffer, and its length is
not what is printed before a turn behind which something is printed. -/
theorem likeSnprintf_iff (hc : Consists (cstr fmt) ap ps) (hmem : mem.length < 2 ^ 32)
    (hroom : textLength ps < mem.length) :
  LikeSnprintf mem fmt ap ↔ ((∀ q ∈ ps, q.Fits) → 0 ∈ mem ∧ ∀ as bs, ps = as ++ bs → bs ≠ [] →
    startsTurn true as = true → textLength as = (cstr mem).length → textLength bs = 0)
  := by
  by_cases hfits : ∀ q ∈ ps, q.Fits
  · have hlen : (cstr mem).length ≤ mem.length := (List.takeWhile_prefix _).length_le
    rw [likeSnprintf_iff_reached hc hfits hmem hroom,
      textLength_reached_iff (by omega) (by omega)]
    constructor
    · intro h _
      exact h
    · intro h
      exact h hfits
  · constructor
    · intro _ h
      exact absurd h hfits
    · intro _
      refine ⟨fmt.length + 2, ?_⟩
      intro k hk buf n r q hn _ hrun
      obtain ⟨k, rfl⟩ := Nat.exists_eq_succ_of_ne_zero (Nat.ne_zero_of_lt hk)
      have hreturns : Returns (start buf n ap) (fmtVsnprintf (k + 1) fmt) fun _ _ => True :=
        ⟨r, q, hrun, trivial⟩
      exact absurd (short_of_returns hn hc (by omega) hreturns).2 hfits

/-- The text `xy` in the buffer and the format `a`. -/
theorem likeSnprintf_iff_char :
  LikeSnprintf [0x78, 0x79, 0] [0x61] []
  := by
  have hc : Consists (cstr [0x61]) [] [.char 0x61] := .char (by decide) .done
  apply (likeSnprintf_iff hc (by decide) (by decide)).mpr
  intro _
  refine ⟨by decide, ?_⟩
  intro as bs hsplit _ _ has
  have hsum := textLength_append as bs
  have hlen : (cstr [0x78, 0x79, 0]).length = 2 := by decide
  rw [← hsplit, has, hlen] at hsum
  have hone : textLength [.char 0x61] = 1 := rfl
  omega

/-- For an empty text in the buffer and the format `a` nothing is stored. -/
theorem not_likeSnprintf :
  ¬ LikeSnprintf [0, 0] [0x61] []
  := by
  have hc : Consists (cstr [0x61]) [] [.char 0x61] := .char (by decide) .done
  have hfits : ∀ q ∈ [Piece.char 0x61], q.Fits := by
    intro q hq
    rw [List.mem_singleton.mp hq]
    trivial
  intro hlike
  have hreached := ((likeSnprintf_iff_reached hc hfits (by decide) (by decide)).mp hlike).2
  revert hreached
  decide

end

end Fmt
