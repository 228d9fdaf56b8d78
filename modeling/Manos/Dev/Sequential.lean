import Manos.Dev.Opening

/-!
# Successive reads of a file

A read of a file of a static namespace copies the start of its contents, whatever the offset of
the portal is.  Successive reads give the same bytes again and again, and none of them is an end of
the file.
-/

namespace Dev

open Exec

variable {pf : Platform} {ns : List StaticNS} {e : StaticNS} {t : List Byte} {d : Device}
  {read : Device → ℕ → ℕ → Exec Reading ℤ} {fd : ℕ}

/-! ### One read -/

/-- The entry of a file with the contents `t` of its declared length, which is not zero. -/
structure FileEntry (ns : List StaticNS) (e : StaticNS) (t : List Byte) : Prop where
  self : ns[e.crumb.selfIdx]? = some e
  file : e.crumb.isDir = false
  contents : e.contents = .text t
  length : t.length = e.length
  pos : 0 < e.length
  /-- an `Offset` -/
  lt : e.length < 2 ^ 32

theorem Contents.take_text {n : ℕ} (h : n ≤ t.length) (s : Reading) :
  Contents.take n (.text t) s = .done (t.take n) s
  := by
  have htake : (t ++ [0]).take n = t.take n := List.take_append_of_le_length h
  rw [Contents.take, if_pos (Nat.le_succ_of_le h), htake]
  rfl

/-- A read of a file copies the start of its contents. -/
theorem readStaticNS_file (h : FileEntry ns e t) {s : Reading} (hs : s.portal.crumb = e.crumb)
    {size : ℕ} (hsize : size ≠ 0) (offset : ℕ) :
  readStaticNS pf ns size offset s =
    .done (ptrdiff pf (min size e.length))
      ((s.put 0 (t.take size)).advance (min size e.length))
  := by
  have hentry : entryAt ns s.portal.crumb.selfIdx s = .done e s :=
    entryAt_of_getElem? (hs ▸ h.self) s
  have hfile : ¬ e.crumb.isDir = true := by simp [h.file]
  have hbytes : (if size > e.length then e.length else size) = min size e.length := by
    rw [Nat.min_def]
    split <;> split <;> omega
  have htake : e.contents.take (min size e.length) s = .done (t.take size) s := by
    rw [h.contents, Contents.take_text (h.length ▸ Nat.min_le_right _ _), ← h.length,
      List.take_eq_take_min]
    simp
  apply (congrFun (if_neg hsize) s).trans
  apply (bind_done (get_apply s)).trans
  apply (bind_done hentry).trans
  apply (congrFun (if_neg hfile) s).trans
  apply (congrFun (if_neg (Nat.ne_of_gt h.pos)) s).trans
  simp only [hbytes]
  apply (bind_done htake).trans
  apply (bind_done (copy_eq 0 (t.take size) s)).trans
  rfl

/-! ### Successive reads -/

/-- The descriptor is open at the entry. -/
structure OpenAt (fd : ℕ) (d : Device) (e : StaticNS) (s : Files) : Prop where
  lt : fd < maxFd
  portal : ∃ a p, s.table fd = some (a, p) ∧ p.device = d.index ∧ p.crumb = e.crumb

/-- `sysread` of a file gives the start of its contents, and the file stays open. -/
theorem sysread_file (hread : read d = readStaticNS pf ns) (h : FileEntry ns e t) {s : Files}
    (hs : OpenAt fd d e s) {size : ℕ} (hsize : size ≠ 0) :
  Returns s (sysread read fd size) fun r s' =>
    r = (ptrdiff pf (min size e.length), stored (t.take size)) ∧ OpenAt fd d e s'
  := by
  obtain ⟨a, p, htable, hdevice, hcrumb⟩ := hs.portal
  have hrun : read d size p.offset ⟨p, fun _ => none⟩ =
      .done (ptrdiff pf (min size e.length))
        (Reading.advance ⟨p, stored (t.take size)⟩ (min size e.length)) := by
    rw [hread, readStaticNS_file h hcrumb hsize, put_empty]
  refine ⟨_, _, sysread_open hs.lt htable hdevice hrun, rfl, ?_⟩
  exact ⟨hs.lt, a, _, Function.update_self fd _ s.table, hdevice, hcrumb⟩

/-- Successive calls of `sysread`. -/
def sysreads (read : Device → ℕ → ℕ → Exec Reading ℤ) (fd : ℤ) :
    List ℕ → Exec Files (List (ℤ × (ℕ → Option Byte)))
  | [] => pure []
  | size :: sizes => do
      let r ← sysread read fd size
      let rs ← sysreads read fd sizes
      return r :: rs

/-- Each one of successive reads of a file gives the start of its contents. -/
theorem sysreads_file (hread : read d = readStaticNS pf ns) (h : FileEntry ns e t) {s : Files}
    (hs : OpenAt fd d e s) {sizes : List ℕ} (hsizes : ∀ size ∈ sizes, size ≠ 0) :
  Returns s (sysreads read fd sizes) fun rs _ =>
    rs = sizes.map fun size => (ptrdiff pf (min size e.length), stored (t.take size))
  := by
  induction sizes generalizing s with
  | nil => exact .pure rfl
  | cons size sizes ih =>
      refine .bind (sysread_file hread h hs (hsizes size List.mem_cons_self)) ?_
      rintro r s' ⟨rfl, hs'⟩
      refine .bind (ih hs' fun n hn => hsizes n (List.mem_cons_of_mem size hn)) ?_
      rintro rs s'' rfl
      exact .pure rfl

/-! ### The end of the file -/

/-- The bytes that a read gave. -/
def dataOf (r : ℤ × (ℕ → Option Byte)) : List (Option Byte) := (List.range r.1.toNat).map r.2

/--
Successive reads of the given sizes give the bytes `t` once: those of some first reads are `t`, and
every later read returns zero.
-/
def GivesOnce (read : Device → ℕ → ℕ → Exec Reading ℤ) (fd : ℤ) (t : List Byte) (sizes : ℕ → ℕ)
    (s : Files) : Prop :=
  ∃ n, ∀ m, Returns s (sysreads read fd ((List.range (n + m)).map sizes)) fun rs _ =>
    (rs.take n).flatMap dataOf = t.map some ∧ ∀ r ∈ rs.drop n, r.1 = 0

/-- After the bytes were given there is a read that returns zero. -/
theorem GivesOnce.exists_zero {sizes : ℕ → ℕ} {s : Files} (h : GivesOnce read fd t sizes s) :
  ∃ n, Returns s (sysreads read fd ((List.range (n + 1)).map sizes)) fun rs _ =>
    ∀ r, rs[n]? = some r → r.1 = 0
  := by
  obtain ⟨n, hn⟩ := h
  refine ⟨n, (hn 1).mono ?_⟩
  rintro rs s' ⟨-, hzero⟩ r hr
  apply hzero r
  apply List.mem_of_getElem? (i := 0)
  rw [List.getElem?_drop, Nat.add_zero, hr]

theorem ptrdiff_ne_zero {n : ℕ} (hpos : n ≠ 0) (hn : n < 2 ^ 32) :
  ptrdiff pf n ≠ 0
  := by
  have hmod : n % 2 ^ pf.width = n := by
    apply Nat.mod_eq_of_lt (Nat.lt_of_lt_of_le hn _)
    apply Nat.pow_le_pow_right Nat.two_pos
    cases pf <;> decide
  intro h
  have hzero : BitVec.ofNat pf.width n = 0 :=
    BitVec.eq_of_toInt_eq (h.trans BitVec.toInt_zero.symm)
  have hnat := congrArg BitVec.toNat hzero
  rw [BitVec.toNat_ofNat, hmod] at hnat
  exact hpos (hnat.trans BitVec.toNat_zero)

/--
Successive reads of a file never reach its end: the read functions of static namespaces do not look
at the offset of the portal, for any file and any sequence of sizes.
-/
theorem sysreads_endless (hread : read d = readStaticNS pf ns) (h : FileEntry ns e t) {s : Files}
    (hs : OpenAt fd d e s) {sizes : ℕ → ℕ} (hsizes : ∀ i, sizes i ≠ 0) :
  ¬ GivesOnce read fd t sizes s
  := by
  intro honce
  obtain ⟨n, rs, s', hrun, hzero⟩ := honce.exists_zero
  have hall : ∀ size ∈ (List.range (n + 1)).map sizes, size ≠ 0 := by
    intro size hsize
    obtain ⟨i, -, rfl⟩ := List.mem_map.mp hsize
    exact hsizes i
  have hrs := (sysreads_file hread h hs hall).done hrun
  have hlast : rs[n]? = some (ptrdiff pf (min (sizes n) e.length), stored (t.take (sizes n))) := by
    rw [hrs]
    simp
  have hne : min (sizes n) e.length ≠ 0 := by
    have := hsizes n
    have := h.pos
    omega
  exact ptrdiff_ne_zero hne (Nat.lt_of_le_of_lt (Nat.min_le_right _ _) h.lt) (hzero _ hlast)

theorem fileEntry_pwd :
  FileEntry (Device.root.sns .k70cw) pwdNode.entry (text "#!pwd")
  := ⟨by decide, by decide, rfl, by decide, by decide, by decide⟩

/-- The file `/bin/pwd` is opened, and then read in parts of the given sizes. -/
theorem sysopen_pwd :
  ∃ s, sysopen .k70cw (text "/bin/pwd") 0 freshFiles = .done 0 s ∧ OpenAt 0 .root pwdNode.entry s
  := by
  obtain ⟨r, s, hrun, rfl, a, p, htable, hp, -⟩ :=
    sysopen_fresh (text "/bin/pwd") (w := pwdNode) (by decide) (by decide) 0
  exact ⟨s, hrun, by decide, a, p, htable, hp.device, hp.crumb⟩

/-- The file `/bin/pwd` is read a byte at a time. -/
theorem sysreads_endless_pwd :
  ∃ s, sysopen .k70cw (text "/bin/pwd") 0 freshFiles = .done 0 s ∧
    ¬ GivesOnce (fun d => d.read .k70cw quietHardware fun _ => 0) 0 (text "#!pwd") (fun _ => 1) s
  := by
  obtain ⟨s, hrun, hs⟩ := sysopen_pwd
  exact ⟨s, hrun, sysreads_endless rfl fileEntry_pwd hs fun _ => Nat.one_ne_zero⟩

/-- Reads of the file `/bin/pwd`, each one with a buffer for all of it, give it every time. -/
theorem sysreads_pwd_again :
  ∃ s, sysopen .k70cw (text "/bin/pwd") 0 freshFiles = .done 0 s ∧
    ¬ GivesOnce (fun d => d.read .k70cw quietHardware fun _ => 0) 0 (text "#!pwd") (fun _ => 4096) s
  := by
  obtain ⟨s, hrun, hs⟩ := sysopen_pwd
  refine ⟨s, hrun, fun honce => ?_⟩
  obtain ⟨n, rs, s', hreads, hzero⟩ := honce.exists_zero
  have hrs := (sysreads_file rfl fileEntry_pwd hs (by simp)).done hreads
  have hlast : rs[n]? = some (ptrdiff .k70cw 5, stored (text "#!pwd")) := by
    rw [hrs]
    simp
    exact ⟨rfl, rfl⟩
  exact absurd (hzero _ hlast) (by decide)

end Dev
