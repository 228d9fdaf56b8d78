import Manos.Dev.Namespace

/-!
# Crumbs of static namespaces

A crumb packs the index of an entry and that of its parent into one number.  The number keeps
twelve bits of the index of the parent, and the test for the sentinel compares it with sixteen
bits that are set.
-/

namespace Dev

/-! ### Packed indices -/

theorem and_ffff_eq_mod (n : ℕ) :
  n &&& 0xffff = n % 0x10000
  := Nat.and_two_pow_sub_one_eq_mod n 16

theorem mkStaticNSFid_eq (p s : ℕ) :
  mkStaticNSFid p s = p % 0x1000 * 0x10000 + s % 0x10000
  := by
  have hlt : s % 0x10000 < 2 ^ 16 := Nat.mod_lt _ (Nat.two_pow_pos 16)
  have hp : p &&& 0xfff = p % 0x1000 := Nat.and_two_pow_sub_one_eq_mod p 12
  have hshift : (p % 0x1000) <<< 16 = p % 0x1000 * 0x10000 := Nat.shiftLeft_eq _ 16
  rw [mkStaticNSFid, hp, and_ffff_eq_mod, ← Nat.shiftLeft_add_eq_or_of_lt hlt, hshift]

theorem parentIdx_mkStaticNSCrumb (p s f : ℕ) :
  (mkStaticNSCrumb p s f).parentIdx = p % 0x1000
  := by
  have hfid : (mkStaticNSCrumb p s f).fid = _ := mkStaticNSFid_eq p s
  have hshift (n : ℕ) : n >>> 16 = n / 0x10000 := Nat.shiftRight_eq_div_pow n 16
  rw [Crumb.parentIdx, hfid, hshift, and_ffff_eq_mod]
  omega

theorem selfIdx_mkStaticNSCrumb (p s f : ℕ) :
  (mkStaticNSCrumb p s f).selfIdx = s % 0x10000
  := by
  have hfid : (mkStaticNSCrumb p s f).fid = _ := mkStaticNSFid_eq p s
  rw [Crumb.selfIdx, hfid, and_ffff_eq_mod]
  omega

theorem isStatic_mkStaticNSCrumb (p s f : ℕ) :
  (mkStaticNSCrumb p s f).isStatic
  := by
  have hbit : (f ||| crumbIsStatic).testBit 1 = true := by
    rw [Nat.testBit_or, show crumbIsStatic.testBit 1 = true from rfl, Bool.or_true]
  refine decide_eq_true fun hzero => ?_
  have hand : ((f ||| crumbIsStatic) &&& crumbIsStatic).testBit 1 = true := by
    rw [Nat.testBit_and, hbit]
    rfl
  rw [show (f ||| crumbIsStatic) &&& crumbIsStatic = 0 from hzero] at hand
  cases hand

/-! ### Round trips -/

/-- The crumb with the indices `p` and `s` is the sentinel exactly if its number is that of a
parent with no bits and of the last index. -/
theorem isSentinel_mkStaticNSCrumb_iff (p s f : ℕ) :
  (mkStaticNSCrumb p s f).isSentinel ↔ p % 0x1000 = 0 ∧ s % 0x10000 = 0xffff
  := by
  have hstatic := of_decide_eq_true (isStatic_mkStaticNSCrumb p s f)
  have hfid : (mkStaticNSCrumb p s f).fid = _ := mkStaticNSFid_eq p s
  rw [Crumb.isSentinel, decide_eq_true_iff, hfid, staticNSSentinel]
  constructor
  · rintro ⟨-, h⟩
    omega
  · rintro ⟨hp, hs⟩
    refine ⟨hstatic, ?_⟩
    omega

/-- The indices of the crumb for `p` and `s` are `p` and `s`, and it is the sentinel exactly if
both of them are. -/
structure CrumbRoundTrips (p s f : ℕ) : Prop where
  parent : (mkStaticNSCrumb p s f).parentIdx = p
  self : (mkStaticNSCrumb p s f).selfIdx = s
  sentinel : (mkStaticNSCrumb p s f).isSentinel ↔ p = staticNSSentinel ∧ s = staticNSSentinel

/-- A crumb gives its indices back if the index of the parent has twelve bits, unless it is the
one for the parent `0` and the last index, which is taken for the sentinel. -/
theorem crumbRoundTrips_iff {p s : ℕ} (f : ℕ) (hp : p ≤ 0xffff) (hs : s ≤ 0xffff) :
  CrumbRoundTrips p s f ↔ p ≤ 0xfff ∧ ¬ (p = 0 ∧ s = staticNSSentinel)
  := by
  have hparent := parentIdx_mkStaticNSCrumb p s f
  have hself := selfIdx_mkStaticNSCrumb p s f
  have hsentinel := isSentinel_mkStaticNSCrumb_iff p s f
  constructor
  · intro h
    have hp' := h.parent
    have hs' := h.sentinel
    rw [hsentinel, staticNSSentinel] at hs'
    rw [staticNSSentinel]
    omega
  · rintro ⟨hp', hne⟩
    constructor
    case parent => omega
    case self => omega
    case sentinel =>
      rw [hsentinel]
      rw [staticNSSentinel] at hne ⊢
      omega

theorem crumbRoundTrips_iff_bin :
  CrumbRoundTrips fidBin 3 crumbIsFile ↔ fidBin ≤ 0xfff ∧ ¬ (fidBin = 0 ∧ 3 = staticNSSentinel)
  := crumbRoundTrips_iff crumbIsFile (by decide) (by decide)

/-- The parent of the sentinel has other bits, and the sentinel is not taken for one. -/
theorem not_crumbRoundTrips :
  ¬ ∀ p s f : ℕ, p ≤ 0xffff → s ≤ 0xffff → CrumbRoundTrips p s f
  := by
  intro hclaim
  have hparent := (hclaim staticNSSentinel staticNSSentinel 0 (by decide) (by decide)).parent
  revert hparent
  decide

end Dev
