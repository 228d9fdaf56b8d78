import Manos.Dev.Read
import Manos.Dev.Static
import Manos.Lib.Cursor

/-!
# Reading directories

A read of a directory stores the names of its children, from the index that the offset of the
portal gives on, as long as they fit in the buffer.  Successive reads give every name once, in the
order of the children.
-/

namespace Dev

open Exec

variable {pf : Platform} {ns T : List StaticNS} {cs : List StaticNS} {e f : StaticNS} {a n : ℕ}
  {s : Reading}

/-! ### Buffers -/

attribute [ext] Reading

/-- The state in which the bytes `l` are stored from the index `c` on. -/
def Reading.put (s : Reading) (c : ℕ) (l : List Byte) : Reading :=
  { s with buf := fun j => if c ≤ j ∧ j < c + l.length then l[j - c]? else s.buf j }

@[simp]
theorem Reading.put_portal (s : Reading) (c : ℕ) (l : List Byte) :
  (s.put c l).portal = s.portal
  := rfl

theorem Reading.put_nil (s : Reading) (c : ℕ) :
  s.put c [] = s
  := by
  ext1
  · rfl
  · funext j
    apply if_neg
    rw [List.length_nil]
    omega

/-- Storing bytes behind others. -/
theorem Reading.put_append (s : Reading) (c : ℕ) (l l' : List Byte) :
  (s.put c l).put (c + l.length) l' = s.put c (l ++ l')
  := by
  ext1
  · rfl
  · funext j
    simp only [put, List.length_append]
    by_cases h : c + l.length ≤ j
    · by_cases hlt : j < c + l.length + l'.length
      · rw [if_pos ⟨h, hlt⟩, if_pos (by omega), List.getElem?_append_right (by omega)]
        congr 1
        omega
      · rw [if_neg (by omega), if_neg (by omega), if_neg (by omega)]
    · rw [if_neg (by omega)]
      by_cases hc : c ≤ j
      · rw [if_pos (by omega), if_pos (by omega), List.getElem?_append_left (by omega)]
      · rw [if_neg (by omega), if_neg (by omega)]

theorem copy_eq (c : ℕ) (l : List Byte) (s : Reading) :
  copy c l s = .done () (s.put c l)
  := by
  induction l generalizing c s with
  | nil =>
      rw [s.put_nil]
      rfl
  | cons b l ih =>
      have hone : ({ s with buf := Function.update s.buf c (some b) } : Reading) = s.put c [b] := by
        ext1
        · rfl
        · funext j
          simp only [Reading.put, List.length_singleton]
          by_cases hj : j = c
          · rw [hj, Function.update_self, if_pos (by omega), Nat.sub_self]
            rfl
          · rw [Function.update_of_ne hj, if_neg (by omega)]
      have hstore : store c b s = .done () (s.put c [b]) := congrArg (Outcome.done ()) hone
      rw [copy, bind_done hstore, ih, show c + 1 = c + [b].length from rfl, s.put_append]
      rfl

/-! ### Names -/

/-- The names of entries as they are stored. -/
def namesOf (cs : List StaticNS) : List Byte := cs.flatMap fun e => e.name ++ [0]

/-- The first of the entries, as long as their names fit in `size` bytes. -/
def fitting : ℕ → List StaticNS → List StaticNS
  | _, [] => []
  | size, e :: cs =>
      if e.name.length + 1 ≤ size then e :: fitting (size - (e.name.length + 1)) cs else []

/-- The entries that a read lists which skips the first ones: it stops at names that do not fit. -/
def listed (size skip : ℕ) (cs : List StaticNS) : List StaticNS :=
  if ∀ e ∈ cs.take skip, e.name.length + 1 ≤ size then fitting size (cs.drop skip) else []

theorem fitting_of_fits (h : e.name.length + 1 ≤ n) (cs : List StaticNS) :
  fitting n (e :: cs) = e :: fitting (n - (e.name.length + 1)) cs
  := if_pos h

theorem fitting_of_not_fits (h : ¬ e.name.length + 1 ≤ n) (cs : List StaticNS) :
  fitting n (e :: cs) = []
  := if_neg h

theorem listed_zero (n : ℕ) (cs : List StaticNS) :
  listed n 0 cs = fitting n cs
  := if_pos (by simp)

theorem listed_succ (h : e.name.length + 1 ≤ n) (skip : ℕ) (cs : List StaticNS) :
  listed n (skip + 1) (e :: cs) = listed n skip cs
  := by
  rw [listed, listed, List.take_succ_cons, List.drop_succ_cons]
  simp only [List.forall_mem_cons, h, true_and]

theorem listed_of_not_fits (h : ¬ e.name.length + 1 ≤ n) (skip : ℕ) (cs : List StaticNS) :
  listed n skip (e :: cs) = []
  := by
  cases skip with
  | zero => rw [listed_zero, fitting_of_not_fits h]
  | succ skip =>
      apply if_neg
      intro hall
      exact h (hall e List.mem_cons_self)

theorem namesOf_cons (e : StaticNS) (cs : List StaticNS) :
  namesOf (e :: cs) = (e.name ++ [0]) ++ namesOf cs
  := rfl

/-- The names that fit are no longer than the buffer. -/
theorem length_namesOf_fitting (n : ℕ) (cs : List StaticNS) :
  (namesOf (fitting n cs)).length ≤ n
  := by
  induction cs generalizing n with
  | nil => apply Nat.zero_le
  | cons e cs ih =>
      by_cases h : e.name.length + 1 ≤ n
      · have hrest := ih (n - (e.name.length + 1))
        rw [fitting_of_fits h, namesOf_cons, List.length_append, List.length_append,
          List.length_singleton]
        omega
      · rw [fitting_of_not_fits h]
        apply Nat.zero_le

theorem length_namesOf_listed (n skip : ℕ) (cs : List StaticNS) :
  (namesOf (listed n skip cs)).length ≤ n
  := by
  rw [listed]
  split
  · apply length_namesOf_fitting
  · apply Nat.zero_le

/-! ### The loop over the entries -/

/-- The loop over the entries of a directory stores the names that are listed. -/
theorem entriesLoop_eq (h : Siblings T a n cs) {k : ℕ} (hk : cs.length ≤ k) (px : Portal)
    (bytes c skip entries : ℕ) (s : Reading) :
  entriesLoop T k px (cs.head?.map (mkNodeInfo px)) bytes c skip entries s =
    .done (entries + (listed bytes skip cs).length) (s.put c (namesOf (listed bytes skip cs)))
  := by
  induction cs generalizing n k px bytes c skip entries s with
  | nil =>
      have hnil : listed bytes skip [] = [] := by
        rw [listed, List.take_nil, List.drop_nil]
        exact if_pos nofun
      rw [hnil, List.length_nil, Nat.add_zero, namesOf, List.flatMap_nil, s.put_nil]
      cases k with
      | zero => rfl
      | succ k => rfl
  | cons e cs ih =>
      obtain ⟨k, rfl⟩ := Nat.exists_eq_succ_of_ne_zero (Nat.ne_zero_of_lt hk)
      have hnext := info_next (σ := Reading) (p := { px with crumb := e.crumb }) h rfl
      have hrest := ih h.tail (Nat.le_of_succ_le_succ hk) { px with crumb := e.crumb }
      rw [List.head?_cons, Option.map_some, entriesLoop]
      by_cases hfits : e.name.length + 1 ≤ bytes
      · have hpos : bytes ≠ 0 := by omega
        apply (congrFun (if_pos ⟨hpos, hfits⟩) s).trans
        cases skip with
        | succ skip =>
            rw [listed_succ hfits]
            apply (bind_done (hnext s)).trans
            exact hrest bytes c skip entries s
        | zero =>
            rw [listed_zero, fitting_of_fits hfits]
            apply (bind_done (copy_eq c (e.name ++ [0]) s)).trans
            apply (bind_done (hnext _)).trans
            apply (hrest (bytes - (e.name.length + 1)) (c + (e.name.length + 1)) 0 (entries + 1)
              _).trans
            have hput := s.put_append c (e.name ++ [0])
              (namesOf (fitting (bytes - (e.name.length + 1)) cs))
            rw [List.length_append, List.length_singleton] at hput
            rw [listed_zero, namesOf_cons, hput, List.length_cons, Nat.add_right_comm entries,
              ← Nat.add_assoc entries]
      · have hnone : ¬ (bytes ≠ 0 ∧ e.name.length + 1 ≤ bytes) := fun hb => hfits hb.2
        apply (congrFun (if_neg hnone) s).trans
        rw [listed_of_not_fits hfits, List.length_nil, Nat.add_zero, namesOf, List.flatMap_nil,
          s.put_nil]
        rfl

/-! ### Reads -/

/-- The state after the offset of the portal is moved. -/
def Reading.advance (s : Reading) (n : ℕ) : Reading :=
  { s with portal := { s.portal with offset := (s.portal.offset + n) % 2 ^ 32 } }

/-- A read of a directory stores the names that are listed, and returns their number. -/
theorem readStaticNS_children (h : Ordered ns) (he : e ∈ ns) (hdir : e.crumb.isDir)
    (hchild : HasChild ns e.crumb.selfIdx) (hs : s.portal.crumb = e.crumb) {size : ℕ}
    (hsize : size ≠ 0) (offset : ℕ) :
  readStaticNS pf (ns ++ [sentinel]) size offset s =
    .done (listed size offset (children ns e.crumb.selfIdx)).length
      ((s.put 0 (namesOf (listed size offset (children ns e.crumb.selfIdx)))).advance
        (listed size offset (children ns e.crumb.selfIdx)).length)
  := by
  have hstatic : s.portal.crumb.isStatic := hs ▸ h.static e he
  have hself : s.portal.crumb.selfIdx = e.crumb.selfIdx := congrArg Crumb.selfIdx hs
  obtain ⟨n, f, cs, hcs, hsib, hdown⟩ :=
    h.info_down (p := clonePortal s.portal default) hstatic hself (hs ▸ hdir) hchild
  have hget : (ns ++ [sentinel])[s.portal.crumb.selfIdx]? = some e :=
    hself ▸ h.getElem?_selfIdx he
  have hloop := entriesLoop_eq hsib hsib.length_le (clonePortal s.portal default) size 0 offset 0 s
  rw [hcs]
  apply (congrFun (if_neg hsize) s).trans
  apply (bind_done (get_apply s)).trans
  apply (bind_done (entryAt_of_getElem? hget s)).trans
  apply (congrFun (if_pos hdir) s).trans
  apply (bind_done (hdown Reading s)).trans
  apply (bind_done hloop).trans
  rw [Nat.zero_add]
  rfl

/--
Successive reads, each one of a buffer of the given size and from the offset of the portal, with
the results and what they stored.
-/
def reads (read : ℕ → ℕ → Exec Reading ℤ) : List ℕ → Exec Reading (List (ℤ × (ℕ → Option Byte)))
  | [] => pure []
  | size :: sizes => do
      modify fun s => { s with buf := fun _ => none }
      let s ← get
      let r ← read size s.portal.offset
      let s ← get
      let rs ← reads read sizes
      return (r, s.buf) :: rs

/-- Exactly the bytes `l` are stored, from the start of the buffer on. -/
def stored (l : List Byte) : ℕ → Option Byte := fun j => l[j]?

theorem put_empty (p : Portal) (l : List Byte) :
  Reading.put ⟨p, fun _ => none⟩ 0 l = ⟨p, stored l⟩
  := by
  ext1
  · rfl
  · funext j
    simp only [Reading.put, stored]
    split
    · rw [Nat.sub_zero]
    · rw [List.getElem?_eq_none]
      omega

/-! ### Successive reads of a directory -/

/-- Where the names fit, a read lists some of what is left. -/
theorem advances_fitting {size : ℕ} (h : ∀ x ∈ cs, x.name.length + 1 ≤ size) :
  Cursor.Advances fitting size cs
  := by
  have hstart : ∀ (l : List StaticNS) (size : ℕ), fitting size l <+: l := by
    intro l
    induction l with
    | nil => intro size; apply List.nil_prefix
    | cons x l ih =>
        intro size
        by_cases hx : x.name.length + 1 ≤ size
        · rw [fitting_of_fits hx]
          exact (List.prefix_cons_inj x).mpr (ih _)
        · rw [fitting_of_not_fits hx]
          apply List.nil_prefix
  intro l hl
  refine ⟨hstart l size, fun hnil => ?_⟩
  cases l with
  | nil => rfl
  | cons x l =>
      rw [fitting_of_fits (h x (hl.subset List.mem_cons_self))] at hnil
      cases hnil

/-- A read that skips names that fit lists what is left behind them. -/
theorem listed_of_fits {size : ℕ} (h : ∀ x ∈ cs, x.name.length + 1 ≤ size) (skip : ℕ) :
  listed size skip cs = fitting size (cs.drop skip)
  := if_pos fun x hx => h x (List.mem_of_mem_take hx)

/-- Successive reads of a directory, from the `o`-th child on. -/
theorem reads_children (h : Ordered ns) (he : e ∈ ns) (hdir : e.crumb.isDir)
    (hchild : HasChild ns e.crumb.selfIdx) {sizes : List ℕ}
    (hsizes : ∀ size ∈ sizes, ∀ x ∈ children ns e.crumb.selfIdx, x.name.length + 1 ≤ size)
    (hs : s.portal.crumb = e.crumb) {o : ℕ} (ho : s.portal.offset = o)
    (hle : o ≤ (children ns e.crumb.selfIdx).length) :
  Returns s (reads (readStaticNS pf (ns ++ [sentinel])) sizes) fun rs _ =>
    rs = (Cursor.chunks fitting sizes ((children ns e.crumb.selfIdx).drop o)).map fun l =>
      ((l.length : ℤ), stored (namesOf l))
  := by
  induction sizes generalizing s o with
  | nil => exact .pure rfl
  | cons size sizes ih =>
      have hfits := hsizes size List.mem_cons_self
      have hsize : size ≠ 0 := by
        obtain ⟨j, hj, -, hja⟩ := hchild
        have := hfits ns[j] (List.mem_filter.mpr ⟨List.getElem_mem hj, decide_eq_true hja⟩)
        omega
      have hlen : (children ns e.crumb.selfIdx).length ≤ entryBound := by
        obtain ⟨n, f, cs, hcs, hsib, -⟩ :=
          h.info_down (p := s.portal) (hs ▸ h.static e he) (congrArg Crumb.selfIdx hs) (hs ▸ hdir)
            hchild
        exact hcs ▸ hsib.length_le
      refine .modify fun s' hs' => .get (.step (readStaticNS_children (s := s') h he hdir hchild
        (by rw [hs']; exact hs) hsize s'.portal.offset) (.get ?_))
      have hlisted : listed size s'.portal.offset (children ns e.crumb.selfIdx) =
          fitting size ((children ns e.crumb.selfIdx).drop o) := by
        rw [listed_of_fits hfits, hs']
        exact congrArg (fun o => fitting size ((children ns e.crumb.selfIdx).drop o)) ho
      rw [hlisted]
      generalize hl : fitting size ((children ns e.crumb.selfIdx).drop o) = l
      have hpre := (advances_fitting hfits _ (List.drop_suffix o _)).1.length_le
      rw [hl, List.length_drop] at hpre
      have hoff : ((s'.put 0 (namesOf l)).advance l.length).portal.offset = o + l.length := by
        rw [Reading.advance, Reading.put_portal, hs']
        change (s.portal.offset + l.length) % 2 ^ 32 = o + l.length
        rw [ho, Nat.mod_eq_of_lt]
        rw [entryBound] at hlen
        omega
      have hbuf : (s'.put 0 (namesOf l)).buf = stored (namesOf l) := by
        rw [hs']
        exact congrArg Reading.buf (put_empty s.portal (namesOf l))
      refine .bind (ih (fun m hm => hsizes m (List.mem_cons_of_mem size hm)) (by rw [hs']; exact hs)
        hoff (by omega)) ?_
      rintro rs s'' rfl
      refine .pure ?_
      rw [Cursor.chunks_cons, List.map_cons, hl, List.drop_drop]
      congr 2

/--
Successive reads of a directory from its start, of sizes in which every name of a child fits.  Each
one stores the names of some children and returns their number; together they store those of the
first children, in their order; one stores nothing exactly when the names of all children were
stored before; and after as many reads as there are children all names are stored.
-/
theorem readStaticNS_lists (h : Ordered ns) (he : e ∈ ns) (hdir : e.crumb.isDir)
    (hchild : HasChild ns e.crumb.selfIdx) {sizes : List ℕ}
    (hsizes : ∀ size ∈ sizes, ∀ x ∈ children ns e.crumb.selfIdx, x.name.length + 1 ≤ size)
    (hp : s.portal.crumb = e.crumb) (ho : s.portal.offset = 0) :
  ∃ parts : List (List StaticNS), parts.length = sizes.length ∧
    Returns s (reads (readStaticNS pf (ns ++ [sentinel])) sizes) (fun rs _ =>
      rs = parts.map fun l => ((l.length : ℤ), stored (namesOf l))) ∧
    (∀ (i : ℕ) l size, parts[i]? = some l → sizes[i]? = some size → (namesOf l).length ≤ size) ∧
    parts.flatten <+: children ns e.crumb.selfIdx ∧
    (∀ i < parts.length, (parts[i]? = some [] ↔
      (parts.take i).flatten = children ns e.crumb.selfIdx)) ∧
    ((children ns e.crumb.selfIdx).length ≤ sizes.length →
      parts.flatten = children ns e.crumb.selfIdx)
  := by
  have hadvances : ∀ size ∈ sizes, Cursor.Advances fitting size (children ns e.crumb.selfIdx) :=
    fun size hsize => advances_fitting (hsizes size hsize)
  have hlength := Cursor.length_chunks (f := fitting) sizes (children ns e.crumb.selfIdx)
  refine ⟨Cursor.chunks fitting sizes (children ns e.crumb.selfIdx), hlength,
    reads_children h he hdir hchild hsizes hp ho (Nat.zero_le _), ?_,
    Cursor.flatten_chunks_isPrefix hadvances, ?_, Cursor.flatten_chunks_eq hadvances⟩
  · intro i l size hl hsize
    obtain ⟨rest, rfl⟩ := Cursor.getElem?_chunks hl hsize
    apply length_namesOf_fitting
  · intro i hi
    exact Cursor.getElem?_chunks_eq_nil_iff hadvances (hlength ▸ hi)

/-- Three reads of the directory of the `dev` device. -/
theorem readStaticNS_lists_dev :
  ∃ (s : Reading) (parts : List (List StaticNS)),
    Returns s (reads (readStaticNS .k70cw (devdevSNS ++ [sentinel])) [11, 40, 11]) (fun rs _ =>
      rs = parts.map fun l => ((l.length : ℤ), stored (namesOf l))) ∧
    parts.flatten.map (·.name) = [text "date", text "kprint", text "interrupts"]
  := by
  have hsizes : ∀ size ∈ [11, 40, 11], ∀ x ∈ children devdevSNS 0, x.name.length + 1 ≤ size := by
    decide
  have hlists := @readStaticNS_lists .k70cw devdevSNS (devdevSNS.get ⟨0, by decide⟩)
    ⟨{ mkPortal 7 with crumb := (devdevSNS.get ⟨0, by decide⟩).crumb }, fun _ => none⟩
    (staticTree_entries .k70cw .dev).toOrdered (List.get_mem _ _) (by decide)
    ⟨1, by decide, by decide, by decide⟩ _ hsizes rfl rfl
  obtain ⟨parts, -, hreads, -, -, -, hall⟩ := hlists
  refine ⟨_, parts, hreads, ?_⟩
  rw [hall (by decide)]
  decide

end Dev
