/-
# Where a search ends

`find_next_impl` passes an absent entry, or a child without entries, in one step: the cursor
goes to the end of the slot.  The slot of an upper level may end beyond the searched range,
and only the end of the cursor's own range holds the cursor back.  So a search that finds
nothing may leave its range.

`Cursor.Lands` is the exact condition for a search to end where it was asked to end.  It
looks at the table and at the cursor before the search: every node across the end of the
searched range that the cursor is not in already has entries.  One step of the search keeps
the condition, and so does the removal of a slot that was found; so the condition serves
searches one after the other.
-/
import Vostd.PageTable.CursorOps

namespace Vostd

open Exec

variable {P : Type}

/-! ## The condition -/

/-- The end of the current slot. -/
def Cursor.slotEnd (c : Cursor) : ℕ := alignDown c.va (pageSize c.level) + pageSize c.level

/-- The walk of `x` visits a node with entries at level `l`. -/
def Populated (m : Mem P) (root x l : ℕ) : Prop :=
  ∃ pt n, nodeAt m root x l = some pt ∧ m.nodes pt = some n ∧ n.nrChildren ≠ 0

/-- The node of level `l` that spans the last byte before `stop` is not one of the nodes
that the cursor is in. -/
def Cursor.Outside (c : Cursor) (stop l : ℕ) : Prop :=
  l < c.level ∨ (stop - 1) / pageSize (l + 1) ≠ c.va / pageSize (l + 1)

/-- A search up to `stop` that finds nothing ends at `stop`: the nodes across `stop` that the
cursor would have to enter have entries. -/
def Cursor.Lands (c : Cursor) (m : Mem P) (root stop : ℕ) : Prop :=
  ∀ l, 1 ≤ l → l < c.guardLevel → ¬pageSize (l + 1) ∣ stop → c.Outside stop l →
    Populated m root (stop - 1) l

section

variable {m : Mem P} {cfg : PageTableConfig P} {root stop l q : ℕ} {c c₁ : Cursor} {n : Node P}

theorem Cursor.va_lt_slotEnd (c : Cursor) : c.va < c.slotEnd :=
  lt_alignDown_add _ (pageSize_pos _)

theorem Cursor.dvd_slotEnd (c : Cursor) : pageSize c.level ∣ c.slotEnd :=
  Nat.dvd_add (dvd_alignDown _ _) dvd_rfl

/-- The last byte before an end inside the current slot is in the slot. -/
theorem Cursor.div_of_le_slotEnd (hva : c.va < stop) (hend : stop ≤ c.slotEnd)
    (hl : c.level ≤ l) : (stop - 1) / pageSize l = c.va / pageSize l := by
  refine div_pageSize_mono hl ?_
  rw [div_eq_iff_mem (pageSize_pos _)]
  have hle := alignDown_le c.va (pageSize c.level)
  have hend' : stop ≤ alignDown c.va (pageSize c.level) + pageSize c.level := hend
  omega

/-! ## Steps that keep the condition -/

/-- After the current slot the cursor is in the same nodes across `stop` as before. -/
theorem Cursor.outside_forward (hpos : 1 ≤ c₁.level) (hva : c₁.va = c.slotEnd)
    (hle : c.level ≤ c₁.level) (hr : c₁.Resumed) (hlt : c₁.va < stop) (hl : l < c₁.guardLevel) :
    c₁.Outside stop l ↔ c.Outside stop l := by
  have hvlt := c.va_lt_slotEnd
  by_cases hl₁ : l < c₁.level
  · -- a node that the cursor has left ends before `stop`
    refine ⟨fun _ => ?_, fun _ => Or.inl hl₁⟩
    by_cases hl₀ : l < c.level
    · exact Or.inl hl₀
    · refine Or.inr ?_
      have hd : pageSize (l + 1) ∣ c₁.va := (pageSize_dvd hl₁).trans hr.start
      have hlow : c.va / pageSize (l + 1) < c₁.va / pageSize (l + 1) := by
        rw [Nat.div_lt_iff_lt_mul (pageSize_pos _), Nat.div_mul_cancel hd]
        omega
      have hhigh : c₁.va / pageSize (l + 1) ≤ (stop - 1) / pageSize (l + 1) :=
        Nat.div_le_div_right (by omega)
      omega
  · -- a node that the cursor stays in spans the old and the new address
    have hidx := hr.index (by omega)
    have hpred := div_pageSize_pred hpos hr.start hidx
    have hsame : (c₁.va - 1) / pageSize (c₁.level + 1) = c.va / pageSize (c₁.level + 1) := by
      rw [hva]
      exact Cursor.div_of_le_slotEnd hvlt le_rfl (by omega)
    have hdiv := div_pageSize_mono (show c₁.level + 1 ≤ l + 1 by omega) (hpred.trans hsame)
    unfold Cursor.Outside
    rw [hdiv]
    constructor
    · exact fun h => Or.inr (h.resolve_left hl₁)
    · exact fun h => Or.inr (h.resolve_left (by omega))

theorem Cursor.lands_forward (hpos : 1 ≤ c₁.level) (hsame : SameRange c c₁)
    (hva : c₁.va = c.slotEnd) (hle : c.level ≤ c₁.level) (hr : c₁.Resumed)
    (hlt : c₁.va < stop) : c₁.Lands m root stop ↔ c.Lands m root stop := by
  unfold Cursor.Lands
  rw [hsame.guardLevel]
  refine forall_congr' fun l => forall_congr' fun _ => forall_congr' fun hl => ?_
  rw [Cursor.outside_forward hpos hva hle hr hlt (by rw [hsame.guardLevel]; exact hl)]

/-- Entering a child with entries keeps the condition. -/
theorem Cursor.lands_down {pt : ℕ} {k : Node P} (hc : CurSlot m cfg root c q n)
    (h2 : 2 ≤ c.level) (h4 : c.level ≤ 4) (hsame : SameRange c c₁)
    (hl₁ : c₁.level = c.level - 1) (hva₁ : c₁.va = c.va)
    (he : n.entries (pteIndex c.va c.level) = .table pt) (hk : m.nodes pt = some k)
    (hne : k.nrChildren ≠ 0) : c₁.Lands m root stop ↔ c.Lands m root stop := by
  have hstep := nodeAt_step (by omega) h4 hc.position.nodeAt (hc.entry_eq.trans he)
  unfold Cursor.Lands Cursor.Outside
  rw [hsame.guardLevel, hva₁, hl₁]
  refine forall_congr' fun l => forall_congr' fun hlpos => forall_congr' fun _ =>
    forall_congr' fun _ => ?_
  constructor
  · intro h hout
    -- the child itself is the node of the level just below the cursor
    by_cases hdiv : l = c.level - 1 ∧ (stop - 1) / pageSize (l + 1) = c.va / pageSize (l + 1)
    · obtain ⟨rfl, hdiv⟩ := hdiv
      refine ⟨pt, k, ?_, hk, hne⟩
      rw [nodeAt_congr (by omega) (slotNo_of_div (by omega) (by omega) hdiv), hstep]
    · refine h ?_
      omega
  · intro h hout
    refine h ?_
    omega

/-- A slot that ends at `stop` ends the search there. -/
theorem Cursor.lands_of_slotEnd (hend : c.slotEnd = stop) : c.Lands m root stop := by
  intro l _ _ hd hout
  have hva := c.va_lt_slotEnd
  have hl : c.level ≤ l := by
    by_contra hlt
    refine hd ((pageSize_dvd (show l + 1 ≤ c.level by omega)).trans ?_)
    rw [← hend]
    exact c.dvd_slotEnd
  have hdiv := Cursor.div_of_le_slotEnd (c := c) (l := l + 1) (by omega) hend.ge (by omega)
  rcases hout with hlt | hne
  · omega
  · exact absurd hdiv hne

/-- A slot across `stop` that the search steps over leads beyond `stop`. -/
theorem Cursor.not_lands (h : CursorPath m cfg root c) (hc : CurSlot m cfg root c q n)
    (hal : 4096 ∣ stop) (hva : c.va < stop) (hend : stop < c.slotEnd)
    (hempty : ∀ pt k, n.entries (pteIndex c.va c.level) = .table pt → m.nodes pt = some k →
      k.nrChildren = 0) : ¬c.Lands m root stop := by
  have hlp := h.level_pos
  have hll := h.level_le
  have hg := h.guard_le
  have hpos := pageSize_pos c.level
  have hend' : stop < alignDown c.va (pageSize c.level) + pageSize c.level := hend
  have h2 : 2 ≤ c.level := by
    by_contra hlow
    have hva_al := h.va_aligned
    rw [show c.level = 1 by omega, pageSize_one, alignDown_of_dvd hva_al] at hend'
    omega
  have hnd : ¬pageSize c.level ∣ stop := by
    intro hd
    have hslot : stop / pageSize c.level = c.va / pageSize c.level := by
      rw [div_eq_iff_mem hpos]
      have := alignDown_le c.va (pageSize c.level)
      omega
    have heq := Nat.div_mul_cancel hd
    rw [hslot] at heq
    have := Nat.div_mul_le_self c.va (pageSize c.level)
    omega
  intro hlands
  obtain ⟨pt, k, hpt, hk, hne⟩ := hlands (c.level - 1) (by omega) (by omega)
    (by rwa [Nat.sub_add_cancel hlp]) (Or.inl (by omega))
  have hdiv := Cursor.div_of_le_slotEnd (c := c) hva hend.le le_rfl
  rw [nodeAt_congr (b := c.va) (by omega) (by
    rw [Nat.sub_add_cancel hlp]
    exact slotNo_of_div hlp (by omega) hdiv), nodeAt_eq_some_iff (by omega)] at hpt
  obtain ⟨p, hp, hentry⟩ := hpt
  rw [Nat.sub_add_cancel hlp] at hp hentry
  rw [hc.position.nodeAt] at hp
  obtain rfl := Option.some.inj hp
  exact hne (hempty pt k (hc.entry_eq.symm.trans hentry) hk)

end

/-! ## The search -/

/-- Where a search up to `stop` ends, and what it leaves of the condition if it finds a slot.  A
search that stays at its address goes down only. -/
structure FindLands (m : Mem P) (root : ℕ) (c : Cursor) (stop : ℕ)
    (r : Option ℕ × Mem P × Cursor) : Prop where
  mem : r.2.1 = m
  done : r.1 = none → (r.2.2.va = stop ↔ c.Lands m root stop ∨ c.barrierVa.stop = stop)
  found : r.1 ≠ none → (r.2.2.Lands m root stop ↔ c.Lands m root stop)
  moved : c.va < r.2.2.va ∨ r.2.2.va = c.va ∧ r.2.2.level ≤ c.level

section

variable {m : Mem P} {cfg : PageTableConfig P} {root stop q : ℕ} {c c₁ : Cursor} {n : Node P}
  {findUnmapSubtree splitHuge : Bool}

theorem FindLands.continued {r : Option ℕ × Mem P × Cursor} (hsame : SameRange c c₁)
    (hiff : c₁.Lands m root stop ↔ c.Lands m root stop)
    (hmoved : c.va < c₁.va ∨ c₁.va = c.va ∧ c₁.level ≤ c.level) (h : FindLands m root c₁ stop r) :
    FindLands m root c stop r where
  mem := h.mem
  done := by
    intro hnone
    rw [h.done hnone, hiff, hsame.barrierVa]
  found := fun hsome => (h.found hsome).trans hiff
  moved := by
    have := h.moved
    omega

/-- A cursor at or after `stop` is only held back to the end of its range. -/
theorem post_findLoop_done (hge : stop ≤ c.va) (fuel : ℕ) :
    Post (fun _ => True) (Cursor.findLoop cfg stop findUnmapSubtree splitHuge fuel m c)
      (fun r => r.1 = none ∧ r.2.1 = m ∧ r.2.2.va = min c.va c.barrierVa.stop) := by
  cases fuel with
  | zero => trivial
  | succ fuel =>
      rw [Cursor.findLoop, if_neg (not_lt.mpr hge)]
      refine ⟨rfl, rfl, ?_⟩
      by_cases hover : c.barrierVa.stop < c.va
      · rw [if_pos hover, min_eq_right hover.le]
      · rw [if_neg hover, min_eq_left (not_lt.mp hover)]

/-- The step over a slot without entries. -/
theorem post_findSkip_lands {fuel : ℕ} (h : CursorPath m cfg root c)
    (hc : CurSlot m cfg root c q n) (hal : 4096 ∣ stop) (hva : c.va < stop)
    (hstop : stop ≤ c.barrierVa.stop)
    (hempty : ∀ pt k, n.entries (pteIndex c.va c.level) = .table pt → m.nodes pt = some k →
      k.nrChildren = 0)
    (ih : ∀ c₁ : Cursor, CursorPath m cfg root c₁ → c₁.va < stop → stop ≤ c₁.barrierVa.stop →
      Post (fun _ => True) (Cursor.findLoop cfg stop findUnmapSubtree splitHuge fuel m c₁)
        (FindLands m root c₁ stop)) :
    Post (fun _ => True)
      (c.moveForward >>= Cursor.findLoop cfg stop findUnmapSubtree splitHuge fuel m)
      (FindLands m root c stop) := by
  refine Post.bind (post_moveForward h (by omega) (fun _ => trivial)) ?_
  rintro c₁ ⟨h₁, hsame, hva₁, hl₁, hr⟩
  rcases Nat.lt_or_ge c₁.va stop with hlt | hge
  · refine (ih c₁ h₁ hlt (by rw [hsame.barrierVa]; exact hstop)).mono ?_
    intro r hr'
    exact hr'.continued hsame (Cursor.lands_forward h₁.level_pos hsame hva₁ hl₁ hr hlt)
      (Or.inl (by rw [hva₁]; exact c.va_lt_slotEnd))
  · refine (post_findLoop_done hge fuel).mono ?_
    rintro ⟨v, m₁, c₂⟩ ⟨rfl, rfl, hva₂⟩
    simp only [hsame.barrierVa] at hva₂
    refine ⟨rfl, fun _ => ?_, fun hsome => absurd rfl hsome, Or.inl (by simp only; omega)⟩
    simp only
    rw [hva₂]
    have hend : c₁.va = c.slotEnd := hva₁
    rcases Nat.eq_or_lt_of_le hge with heq | hgt
    · -- the slot ends at `stop`
      have hlands : c.Lands m₁ root stop := Cursor.lands_of_slotEnd (by omega)
      exact ⟨fun _ => Or.inl hlands, fun _ => by omega⟩
    · have hnot : ¬c.Lands m₁ root stop := Cursor.not_lands h hc hal hva (by omega) hempty
      constructor
      · intro heq
        exact Or.inr (by omega)
      · intro hor
        have := hor.resolve_left hnot
        omega

/-- **Where the search loop ends**, in a table of base pages. -/
theorem post_findLoop_lands (hmax : cfg.maxItemLevel ≤ 1) (hal : 4096 ∣ stop)
    (hW : WellFormed m) (fuel : ℕ) : ∀ c : Cursor, CursorPath m cfg root c → c.va < stop →
    stop ≤ c.barrierVa.stop →
    Post (fun _ => True) (Cursor.findLoop cfg stop findUnmapSubtree splitHuge fuel m c)
      (FindLands m root c stop) := by
  induction fuel with
  | zero =>
      intro c _ _ _
      trivial
  | succ fuel ih =>
      intro c h hva hstop
      obtain ⟨q, n, hc⟩ := h.position hW (by omega)
      have h4 := h.level_le.trans h.guard_le
      rw [Cursor.findLoop, if_pos hva]
      have hhit : FindLands m root c stop (some c.va, m, c) :=
        ⟨rfl, fun hnone => (Option.some_ne_none _ hnone).elim, fun _ => Iff.rfl,
          Or.inr ⟨rfl, le_rfl⟩⟩
      have hskip := fun hempty => post_findSkip_lands h hc hal hva hstop hempty ih
      refine Post.bind (post_curVaRange c (fun _ => trivial)) ?_
      rintro ⟨s, t⟩ ⟨hs, ht⟩
      refine hc.curEntry_bind ?_
      cases he : n.entries (pteIndex c.va c.level) with
      | absent =>
          refine hskip ?_
          intro pt k hpt
          rw [he] at hpt
          cases hpt
      | frame pa prop =>
          refine post_ite (fun _ => hhit) ?_
          intro hcond
          -- a base page always fits
          have hl1 : c.level = 1 := by
            have hle := ((hW.ok q n hc.position.node).leaf _ _ _ hc.slot he).2
            rw [hc.level, hc.cfg_eq] at hle
            have := h.level_pos
            omega
          have hva_al := h.va_aligned
          simp only at hs ht
          rw [hl1, pageSize_one, alignDown_of_dvd hva_al] at hs ht
          have hfit : c.va = s ∧ t ≤ stop := ⟨hs.symm, by omega⟩
          simp [hfit] at hcond
      | table pt =>
          refine post_ite (fun _ => hhit) ?_
          intro _
          obtain ⟨k, hk, -⟩ := (hW.ok q n hc.position.node).child _ _ hc.slot he
          refine post_node_bind hk ?_
          have h2 := hc.two_le hW he
          refine post_ite ?_ ?_
          · intro hne
            refine Post.bind (post_pushLevel h (by omega) h2 hc.position.nodeAt
              (hc.entry_eq.trans he)) ?_
            rintro c₁ ⟨h₁, hsame, hl₁, hva₁⟩
            refine (ih c₁ h₁ (by omega) (by rw [hsame.barrierVa]; exact hstop)).mono ?_
            intro r hr
            exact hr.continued hsame (Cursor.lands_down hc h2 h4 hsame hl₁ hva₁ he hk hne)
              (by omega)
          · intro hzero
            refine hskip ?_
            intro pt' k' hpt hk'
            rw [he] at hpt
            injection hpt with hpt
            subst hpt
            rw [hk] at hk'
            obtain rfl := Option.some.inj hk'
            exact not_not.mp hzero

/-- **Where `find_next_impl` ends.** -/
theorem post_findNextImpl_lands (hmax : cfg.maxItemLevel ≤ 1) {len : ℕ} (hlen : 0 < len)
    (hW : WellFormed m) (h : CursorPath m cfg root c) :
    Post (fun _ => True) (c.findNextImpl cfg m len findUnmapSubtree splitHuge)
      (FindLands m root c (c.va + len)) := by
  unfold Cursor.findNextImpl
  refine Post.bind (post_check (fun _ => trivial)) ?_
  intro _ hmod
  refine Post.bind (post_sub (fun _ => trivial)) ?_
  rintro _ ⟨rfl, hle⟩
  refine Post.bind (post_check (fun _ => trivial)) ?_
  intro _ hfit
  refine Post.bind (post_add (fun _ => trivial)) ?_
  rintro _ ⟨rfl, -⟩
  exact post_findLoop_lands hmax (Nat.dvd_add h.va_aligned (Nat.dvd_of_mod_eq_zero hmod)) hW _ c h
    (by omega) (by omega)

end

/-! ## Slots that are taken -/

section

variable {m m' : Mem P} {cfg : PageTableConfig P} {root stop l q : ℕ} {c c' : Cursor} {n : Node P}
  {e : Pte P}

/-- Overwriting the current slot keeps the entries of the nodes that the cursor is not in. -/
theorem Overwrites.populated_iff (ho : Overwrites m m' cfg root c c' e q n) (hW : WellFormed m)
    (h : CursorPath m cfg root c) (hlt : c'.va < stop) (hstop : stop ≤ c.barrierVa.stop)
    (hl : 1 ≤ l) (hg : l < c.guardLevel) (hout : c.Outside stop l) :
    Populated m' root (stop - 1) l ↔ Populated m root (stop - 1) l := by
  have hp := ho.slot.position
  have h4 := h.guard_le
  have hpos := pageSize_pos c.level
  have hva := ho.va_eq
  have hmem : c.barrierVa.Contains (stop - 1) := by
    have := h.start_le
    constructor <;> omega
  have hcov := h.isRoot.covers (h.managed _ hmem)
  have hcan := (h.managed _ hmem).canonical
  have hcan' := (h.va_managed (show c.va < c.barrierVa.stop by omega)).canonical
  have hbeside : slotNo c.level (stop - 1) ≠ slotNo c.level c.va := by
    rw [Ne, hcan.mem_slot_iff hcan' hp.level_pos hp.level_le, alignDown_of_dvd ho.start]
    omega
  have hnode : nodeAt m' root (stop - 1) l = nodeAt m root (stop - 1) l :=
    ho.replaced.nodeAt_beside hp hW hcov hl (by omega) (fun _ => hbeside)
  -- the changed node is one that the cursor is in
  have hne : ∀ pt, nodeAt m root (stop - 1) l = some pt → pt ≠ q := by
    rintro pt hpt rfl
    obtain ⟨-, rfl, hslot⟩ := hW.nodeAt_inj hcov hp.covers hl (by omega) hp.level_pos hp.level_le
      hpt hp.nodeAt
    rw [hcan.slotNo_eq_iff hcan' (by omega) (by omega)] at hslot
    exact hout.elim (fun hlt' => by omega) (fun hdiv => hdiv hslot)
  unfold Populated
  rw [hnode]
  refine exists_congr fun pt => ?_
  constructor
  · rintro ⟨d, hpt, hd, hcount⟩
    obtain ⟨d', hd', heq⟩ := (ho.replaced.nrChildren_iff (hne pt hpt)).mp ⟨d, hd, rfl⟩
    exact ⟨d', hpt, hd', by rwa [heq]⟩
  · rintro ⟨d, hpt, hd, hcount⟩
    obtain ⟨d', hd', heq⟩ := (ho.replaced.nrChildren_iff (hne pt hpt)).mpr ⟨d, hd, rfl⟩
    exact ⟨d', hpt, hd', by rwa [heq]⟩

theorem Overwrites.lands_iff (ho : Overwrites m m' cfg root c c' e q n) (hW : WellFormed m)
    (h : CursorPath m cfg root c) (hle : c.level ≤ c'.level) (hr : c'.Resumed) (hlt : c'.va < stop)
    (hstop : stop ≤ c.barrierVa.stop) : c'.Lands m' root stop ↔ c.Lands m root stop := by
  have hend : c'.va = c.slotEnd := by
    unfold Cursor.slotEnd
    rw [ho.va_eq, alignDown_of_dvd ho.start]
  rw [Cursor.lands_forward ho.cursor.level_pos ho.same hend hle hr hlt]
  refine forall_congr' fun l => forall_congr' fun hl => forall_congr' fun hg =>
    forall_congr' fun _ => forall_congr' fun hout => ?_
  exact ho.populated_iff hW h hlt hstop hl hg hout

/-- An entry that is taken away is handed back. -/
theorem fragOf_ne_none (hne : e ≠ .absent) : fragOf m c e ≠ none := by
  cases e with
  | absent => exact absurd rfl hne
  | frame pa prop => exact Option.some_ne_none _
  | table pt => exact Option.some_ne_none _

/-- What `take_next` leaves of the condition for the end `stop`. -/
structure TakeLands (m : Mem P) (root : ℕ) (c : Cursor) (stop : ℕ)
    (r : Option (PageTableFrag P) × Mem P × Cursor) : Prop where
  done : r.1 = none → (r.2.2.va = stop ↔ c.Lands m root stop ∨ c.barrierVa.stop = stop)
  last : r.1 ≠ none → r.2.2.va = stop → c.Lands m root stop
  taken : r.1 ≠ none → r.2.2.va < stop →
    (r.2.2.Lands r.2.1 root stop ↔ c.Lands m root stop)

/-- **Where `take_next` ends**, in a table of base pages. -/
theorem post_takeNext_lands (hmax : cfg.maxItemLevel ≤ 1) {len : ℕ} (hlen : 0 < len)
    (hW : WellFormed m) (h : CursorOK m cfg root c) :
    Post (fun _ => True) (c.takeNext cfg m len) (TakeLands m root c (c.va + len)) := by
  have hA : SearchFaults (fun _ => True) m cfg c true :=
    ⟨Or.inl trivial, fun _ _ => ⟨⟨trivial, trivial⟩, Or.inl trivial⟩⟩
  unfold Cursor.takeNext
  refine Post.bind ((post_findNextImpl hA (Or.inl trivial) hW h).and
    (post_findNextImpl_lands hmax hlen hW h.toCursorPath)) ?_
  rintro ⟨v, m₁, c₁⟩ ⟨⟨-, hle, hf⟩, hlands⟩
  obtain rfl : m₁ = m := hlands.mem
  cases v with
  | none =>
      exact ⟨fun _ => hlands.done rfl, fun hsome => absurd rfl hsome, fun hsome => absurd rfl hsome⟩
  | some v =>
      obtain ⟨-, q, n, hc, hfits, hne⟩ := hf.fits
      have hpath : CursorPath m₁ cfg root c₁ := hf.path
      have hb : c₁.barrierVa = c.barrierVa := hf.same.barrierVa
      have hiff : c₁.Lands m₁ root (c.va + len) ↔ c.Lands m₁ root (c.va + len) :=
        hlands.found (Option.some_ne_none v)
      refine Post.bind (post_replaceCurEntry hW hc .none (fun pa hf => by cases hf)
        (fun _ _ _ hf => by cases hf) (Or.inl trivial)) ?_
      rintro ⟨frag, m₂⟩ ⟨hr, hfrag, -⟩
      have hin : c₁.va + pageSize c₁.level ≤ c₁.barrierVa.stop := by
        rw [hb]
        exact hfits.le.trans hle
      have hpos := pageSize_pos c₁.level
      refine Post.bind ((post_overwriteForward hpath hW hc hr rfl (fun _ _ hf => by cases hf)
        hfits.start hin (fun _ => trivial)).and (post_moveForward
          (hpath.of_replaced hW hc hr rfl (fun _ _ hf => by cases hf)) (by omega)
          (fun _ => trivial))) ?_
      rintro c₂ ⟨ho, -, -, -, hlevel, hresumed⟩
      refine ⟨fun hnone => ?_, fun _ hva => ?_, fun _ hva => ?_⟩
      · rw [hfrag] at hnone
        exact absurd hnone (fragOf_ne_none hne)
      · refine hiff.mp (Cursor.lands_of_slotEnd ?_)
        unfold Cursor.slotEnd
        rw [alignDown_of_dvd hfits.start, ← ho.va_eq]
        exact hva
      · rw [← hiff]
        exact ho.lands_iff hW hpath hlevel hresumed hva (by rw [hb]; exact hle)

/-- A search of no bytes stays where it is. -/
theorem post_takeNext_zero (h : CursorOK m cfg root c) :
    Post (fun _ => True) (c.takeNext cfg m 0) (fun r => r.1 = none ∧ r.2.2.va = c.va) := by
  unfold Cursor.takeNext Cursor.findNextImpl
  refine Post.bind (Q := fun r => r.1 = none ∧ r.2.2.va = c.va) ?_ ?_
  · refine Post.bind_any fun _ => Post.bind_any fun _ => Post.bind_any fun _ => ?_
    refine Post.bind (post_add (fun _ => trivial)) ?_
    rintro _ ⟨rfl, -⟩
    refine (post_findLoop_done le_rfl _).mono ?_
    rintro r ⟨hnone, -, hva⟩
    exact ⟨hnone, by rw [hva, min_eq_left h.le_stop]⟩
  · rintro ⟨v, m₁, c₁⟩ ⟨rfl, hva⟩
    exact ⟨rfl, hva⟩

/-- **Where `protect_next` ends** if it finds nothing, in a table of base pages. -/
theorem post_protectNext_lands (hmax : cfg.maxItemLevel ≤ 1) {len : ℕ} (hlen : 0 < len)
    (hW : WellFormed m) (h : CursorOK m cfg root c) (op : P → P) :
    Post (fun _ => True) (c.protectNext cfg m len op) (fun r => r.1 = none →
      (r.2.2.va = c.va + len ↔
        c.Lands m root (c.va + len) ∨ c.barrierVa.stop = c.va + len)) := by
  unfold Cursor.protectNext
  refine Post.bind (post_findNextImpl_lands hmax hlen hW h.toCursorPath) ?_
  rintro ⟨v, m₁, c₁⟩ hlands
  cases v with
  | none => exact fun _ => hlands.done rfl
  | some v =>
      -- a protected page is reported
      refine Post.bind_any fun _ => Post.bind_any fun _ => Post.bind_any fun _ =>
        Post.bind_any fun _ => ?_
      exact fun hnone => (Option.some_ne_none _ hnone).elim

end

end Vostd
