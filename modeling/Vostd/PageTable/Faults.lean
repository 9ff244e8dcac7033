/-
# Where cursor operations stop

An operation of a cursor may refuse its arguments, and it may get no memory for a new
node.  This file is about the other ways to stop.

* Addresses.  `cur_va_range` computes the end of the current slot, and the slot at the
  top of the address space ends at `2^64`, which is not a word.  A range with headroom
  (`RangeHeadroom`) does not reach such a slot, and then no address computation
  overflows, over whole runs (`runOps_no_overflow`).  The contract of `Cursor::new`
  asks for headroom; its checks do not.
* `find_next` neither refuses nor allocates when its length is in the range, so it
  returns, and what it returns is exact.
* `jump` climbs until a node of its path spans the target.  A cursor that has run to
  the end of the span of its subtree root (`Cursor.Depleted`) has no such node.
-/
import Vostd.PageTable.Sharing

namespace Vostd

open Exec

variable {P : Type}

/-! ## Reached cursors -/

/-- The cursor `c` on the memory `m'`, opened on `r` and moved by operations. -/
def Reached (cfg : PageTableConfig P) (m : Mem P) (root : ℕ) (r : AddrRange) (ops : List (Op cfg))
    (m' : Mem P) (c : Cursor) : Prop :=
  ∃ c₀ locked m₀ rs, Cursor.new cfg m root r = .ok (.ok (c₀, locked), m₀) ∧
    c₀.runOps cfg ops m₀ = .ok (rs, m', c)

section

variable {cfg : PageTableConfig P} {m m' : Mem P} {root : ℕ} {r : AddrRange} {ops : List (Op cfg)}
  {c : Cursor}

/-- What holds of a reached cursor. -/
structure ReachedOK (cfg : PageTableConfig P) (m' : Mem P) (root : ℕ) (r : AddrRange) (c : Cursor) :
    Prop where
  wellFormed : WellFormed m'
  cursor : CursorOK m' cfg root c
  barrierVa : c.barrierVa = r
  lockLevel : LockLevel cfg r c.guardLevel

theorem Reached.ok (h : Reached cfg m root r ops m' c) (hW : WellFormed m)
    (hroot : IsRoot m cfg root) : ReachedOK cfg m' root r c := by
  obtain ⟨c₀, locked, m₀, rs, hnew, hrun⟩ := h
  obtain ⟨hg, -, hlock, -, ho⟩ :=
    (post_new (Fault.refusing_isPanic.alloc m) (Or.inl trivial) hW hroot).of_ok hnew
  obtain ⟨hstep, -⟩ := (refines_runOps ops m₀ c₀ (hg.wellFormed hW) ho.cursor).of_ok hrun
  refine ⟨hstep.wellFormed, hstep.cursor, ?_, ?_⟩
  · rw [hstep.same.barrierVa, ho.barrierVa]
  · rw [hstep.same.guardLevel]
    exact hlock

/-- A cursor on a range with headroom has headroom. -/
theorem ReachedOK.headroom (h : ReachedOK cfg m' root r c) (hroom : RangeHeadroom cfg r) :
    c.Headroom := by
  unfold Cursor.Headroom
  rw [h.barrierVa]
  have hlp := h.cursor.level_pos
  have hll := h.cursor.level_le
  exact hroom c.guardLevel (by omega) h.cursor.guard_le h.lockLevel

/-- Every range in the lower half has headroom. -/
theorem rangeHeadroom_of_base_zero (hbase : cfg.base = 0) (hr : cfg.isValidRange r = true) :
    RangeHeadroom cfg r := by
  intro g _ h4 _
  obtain ⟨hne, hman⟩ := PageTableConfig.managed_of_isValidRange hr
  have hlast := (hman (r.stop - 1) ⟨by omega, by omega⟩).base_le
  have hsize := pageSize_le h4
  rw [pageSize_four] at hsize
  omega

end

/-! ## Address computations -/

/-- Stopping other than by an overflow. -/
def Fault.IsRefusal : Fault → Prop
  | .assertion | .noMemory => True
  | .overflow | .counter | .badAccess | .outOfFuel => False

theorem Fault.refusing_isRefusal : Fault.Refusing Fault.IsRefusal := ⟨trivial, trivial⟩

section

variable {cfg : PageTableConfig P} {m : Mem P} {root : ℕ} {c : Cursor}

/-- The items that an operation maps are frames of the address space. -/
def Op.ItemsFit (op : Op cfg) : Prop :=
  ∀ item, op = .map item → 1 ≤ item.level ∧ item.pa + pageSize item.level ≤ 2 ^ 64

/-- **One operation**: with headroom it returns or refuses. -/
theorem perform_no_overflow (hW : WellFormed m) (h : CursorOK m cfg root c) (hroom : c.Headroom)
    (hfits : m.Fits) (op : Op cfg) (hop : op.ItemsFit) :
    Post Fault.IsRefusal (c.perform cfg m op) (fun _ => True) := by
  have hA : OpFaults Fault.IsRefusal m c :=
    ⟨Fault.refusing_isRefusal, Or.inr hroom, Or.inr hfits⟩
  have hS : ∀ b, SearchFaults Fault.IsRefusal m cfg c b := fun b =>
    ⟨Or.inr hroom, fun _ _ => ⟨Fault.refusing_isRefusal, Or.inr hfits⟩⟩
  cases op with
  | map item =>
      exact Post.bind (post_map hA (Or.inr (hop item rfl).1) hW h item.level_le)
        (fun _ _ => trivial)
  | takeNext len =>
      exact Post.bind (post_takeNext ⟨hS true, Or.inl trivial, Or.inl trivial⟩ hW h)
        (fun _ _ => trivial)
  | protectNext len op =>
      exact Post.bind (post_protectNext (hS true) trivial hW h len op) (fun _ _ => trivial)
  | findNext len =>
      exact Post.bind (post_findNextImpl (hS false) (Or.inl trivial) hW h) (fun _ _ => trivial)
  | query =>
      exact Post.bind (post_query (Or.inl trivial) (Or.inr hroom) hW h) (fun _ _ => trivial)
  | jump va =>
      exact Post.bind (post_jump h (Or.inl trivial)) (fun _ _ => trivial)

/-- What an operation keeps. -/
theorem perform_keeps (hW : WellFormed m) (h : CursorOK m cfg root c) (hfits : m.Fits)
    (op : Op cfg) (hop : op.ItemsFit) :
    Post Fault.IsPanic (c.perform cfg m op) (fun res =>
      StepOK m cfg root c res.2.1 res.2.2 ∧ res.2.1.Fits) := by
  refine ((refines_perform hW h op).and (effect_perform hW h op)).mono ?_
  rintro ⟨res, m', c'⟩ ⟨⟨hstep, -⟩, heff⟩
  exact ⟨hstep, heff.allLeaves hW passesToParts_fits hfits (fun item hitem => (hop item hitem).2)⟩

/-- **Runs**: with headroom, no operation of a run overflows. -/
theorem runOps_no_overflow (ops : List (Op cfg)) : ∀ (m : Mem P) (c : Cursor), WellFormed m →
    CursorOK m cfg root c → c.Headroom → m.Fits → (∀ op ∈ ops, op.ItemsFit) →
    Post Fault.IsRefusal (c.runOps cfg ops m) (fun _ => True) := by
  induction ops with
  | nil =>
      intro m c _ _ _ _ _
      trivial
  | cons op ops ih =>
      intro m c hW h hroom hfits hops
      have hop : op.ItemsFit := hops op List.mem_cons_self
      rw [Cursor.runOps]
      refine Post.bind ((perform_no_overflow hW h hroom hfits op hop).mono'
        (R := fun res => StepOK m cfg root c res.2.1 res.2.2 ∧ res.2.1.Fits) ?_) ?_
      · intro res hres _
        exact (perform_keeps hW h hfits op hop).of_ok hres
      · rintro ⟨res, m₁, c₁⟩ ⟨hstep, hfits₁⟩
        refine Post.bind (ih m₁ c₁ hstep.wellFormed hstep.cursor
          (hstep.same.headroom_iff.mpr hroom) hfits₁
          (fun op' hop' => hops op' (List.mem_cons_of_mem op hop'))) ?_
        intro _ _
        trivial

/-- **Address computations.**  Where a range leaves headroom, neither opening a cursor on
it nor any sequence of operations on the cursor overflows, as long as the mapped
frames end in the address space.  The ranges of the lower half all leave headroom. -/
theorem cursor_addresses_fit {r : AddrRange} (hW : WellFormed m) (hroot : IsRoot m cfg root)
    (hfits : m.Fits) (hroom : RangeHeadroom cfg r ∨ cfg.base = 0) :
    Cursor.new cfg m root r ≠ .error .overflow ∧
      ∀ c locked m₀ (ops : List (Op cfg)), Cursor.new cfg m root r = .ok (.ok (c, locked), m₀) →
        (∀ op ∈ ops, op.ItemsFit) → c.runOps cfg ops m₀ ≠ .error .overflow := by
  by_cases hvalid : cfg.isValidRange r = true
  · have hroom : RangeHeadroom cfg r := hroom.elim id
      (fun hb => rangeHeadroom_of_base_zero hb hvalid)
    have hopen := post_new (Fault.refusing_isRefusal.alloc m) (Or.inr hroom) hW hroot
    constructor
    · intro herr
      exact hopen.of_error herr
    · intro c locked m₀ ops hnew hops herr
      obtain ⟨hg, -, hlock, -, ho⟩ := hopen.of_ok hnew
      have hok : ReachedOK cfg m₀ root r c := ⟨hg.wellFormed hW, ho.cursor, ho.barrierVa, hlock⟩
      exact (runOps_no_overflow ops m₀ c hok.wellFormed hok.cursor (hok.headroom hroom)
        (hg.allLeaves hW passesToParts_fits hfits) hops).of_error herr
  · -- an invalid range is refused at once
    have hnew : Cursor.new cfg m root r = .ok (.error (.invalidVaddrRange r.start r.stop), m) := by
      unfold Cursor.new
      rw [if_pos (by simp [hvalid])]
    rw [hnew]
    constructor
    · intro h
      cases h
    · intro c locked m₀ ops h
      cases h

/-- The table that `PageTable::empty` makes. -/
theorem emptyTable_ok {pool : List ℕ} (hm : emptyTable cfg (freshMem pool) = .ok (root, m)) :
    WellFormed m ∧ IsRoot m cfg root ∧ m.Fits := by
  obtain ⟨hf, hW, hroot⟩ := (post_emptyTable (wellFormed_of_no_nodes (fun _ => rfl)) cfg).of_ok hm
  refine ⟨hW, hroot, ?_⟩
  rintro cfg' q i l pa prop ⟨n, hn, -, -, -, he⟩
  rw [hf.nodes] at hn
  rcases update_eq_cases hn with ⟨rfl, heq⟩ | ⟨hq, hn⟩
  · obtain rfl := Option.some.inj heq
    cases he
  · cases hn

/-- A test of the memory and the cursor at the end of a session is one of a reached cursor. -/
theorem exists_reached (cfg : PageTableConfig P) (r : AddrRange) (ops : List (Op cfg))
    (p : Mem P → Cursor → Bool)
    (h : returns (session cfg samplePool r ops) (fun x => p x.2.1 x.2.2) = true) :
    ∃ root m m' c, WellFormed m ∧ IsRoot m cfg root ∧ Reached cfg m root r ops m' c ∧
      p m' c = true := by
  obtain ⟨⟨rs, m', c⟩, hs, hp⟩ := exists_of_returns h
  obtain ⟨⟨root, m⟩, hm, hs⟩ := bind_eq_ok.mp hs
  obtain ⟨c₀, locked, m₀, hnew, hrun⟩ := openRun_eq_ok hs
  obtain ⟨hW, hroot, -⟩ := emptyTable_ok hm
  exact ⟨root, m, m', c, hW, hroot, ⟨c₀, locked, m₀, rs, hnew, hrun⟩, hp⟩

/-- The last but one slot of 2 MiB in the address space. -/
def highRange : AddrRange := ⟨2 ^ 64 - 2 ^ 22, 2 ^ 64 - 2 ^ 21⟩

/-- The last two of these slots, without the first 511 pages and the last one. -/
def topRange : AddrRange := ⟨2 ^ 64 - 2 ^ 21 - 4096, 2 ^ 64 - 4096⟩

theorem rangeHeadroom_highRange : RangeHeadroom sampleKernelConfig highRange := by
  intro g h1 h4 hlock
  interval_cases g
  · decide
  · decide
  · revert hlock
    unfold LockLevel
    decide
  · revert hlock
    unfold LockLevel
    decide

theorem cursor_addresses_fit_sample : ∃ (m : Mem Unit) (root : ℕ) (c : Cursor) (locked : List ℕ)
    (m₀ : Mem Unit), WellFormed m ∧ IsRoot m sampleKernelConfig root ∧
    Cursor.new sampleKernelConfig m root highRange = .ok (.ok (c, locked), m₀) ∧
    c.runOps sampleKernelConfig [.query, .findNext (2 ^ 21)] m₀ ≠ .error .overflow := by
  obtain ⟨root, m, c, locked, m₀, hm, hnew⟩ : ∃ root m c locked m₀,
      emptyTable sampleKernelConfig (freshMem samplePool) = .ok (root, m) ∧
      Cursor.new sampleKernelConfig m root highRange = .ok (.ok (c, locked), m₀) :=
    ⟨_, _, _, _, _, rfl, rfl⟩
  obtain ⟨hW, hroot, hfits⟩ := emptyTable_ok hm
  refine ⟨m, root, c, locked, m₀, hW, hroot, hnew, ?_⟩
  refine (cursor_addresses_fit hW hroot hfits (Or.inl rangeHeadroom_highRange)).2 c locked m₀ _
    hnew ?_
  intro op hop item hitem
  rw [hitem] at hop
  simp at hop

/-- The slot at the top of the address space: `Cursor::new` accepts the range, and the
first operation that comes to the last slot overflows. -/
theorem last_slot_overflows : ∃ (m : Mem Unit) (root : ℕ) (c : Cursor) (locked : List ℕ)
    (m₀ : Mem Unit), WellFormed m ∧ IsRoot m sampleKernelConfig root ∧ m.Fits ∧
    sampleKernelConfig.isValidRange topRange = true ∧
    Cursor.new sampleKernelConfig m root topRange = .ok (.ok (c, locked), m₀) ∧
    c.runOps sampleKernelConfig [.jump (2 ^ 64 - 8192), .query] m₀ = .error .overflow := by
  obtain ⟨root, m, c, locked, m₀, hm, hnew, hrun⟩ : ∃ root m c locked m₀,
      emptyTable sampleKernelConfig (freshMem samplePool) = .ok (root, m) ∧
      Cursor.new sampleKernelConfig m root topRange = .ok (.ok (c, locked), m₀) ∧
      c.runOps sampleKernelConfig [.jump (2 ^ 64 - 8192), .query] m₀ = .error .overflow :=
    ⟨_, _, _, _, _, rfl, rfl, rfl⟩
  obtain ⟨hW, hroot, hfits⟩ := emptyTable_ok hm
  exact ⟨m, root, c, locked, m₀, hW, hroot, hfits, by decide, hnew, hrun⟩

end

/-! ## `find_next` -/

section

variable {cfg : PageTableConfig P} {m m' : Mem P} {root : ℕ} {r : AddrRange} {ops : List (Op cfg)}
  {c : Cursor}

/-- A search that does not split huge pages leaves the memory alone. -/
theorem findLoop_mem (stop : ℕ) (u : Bool) (fuel : ℕ) : ∀ c : Cursor,
    Post (fun _ => True) (Cursor.findLoop cfg stop u false fuel m c) (fun res => res.2.1 = m) := by
  induction fuel with
  | zero =>
      intro c
      trivial
  | succ fuel ih =>
      intro c
      have hmove : Post (fun _ => True)
          (c.moveForward >>= Cursor.findLoop cfg stop u false fuel m) (fun res => res.2.1 = m) :=
        Post.bind_any ih
      rw [Cursor.findLoop]
      refine post_ite (fun _ => ?_) (fun _ => rfl)
      apply Post.bind_any
      intro range
      apply Post.bind_any
      intro entry
      cases entry with
      | absent => exact hmove
      | frame pa prop =>
          refine post_ite (fun _ => rfl) (fun hcond => ?_)
          simp at hcond
      | table pt =>
          refine post_ite (fun _ => rfl) (fun _ => ?_)
          apply Post.bind_any
          intro n
          exact post_ite (fun _ => Post.bind_any ih) (fun _ => hmove)

theorem findNext_mem (c : Cursor) (len : ℕ) :
    Post (fun _ => True) (c.findNext cfg m len) (fun res => res.2.1 = m) := by
  unfold Cursor.findNext Cursor.findNextImpl
  apply Post.bind_any
  intro _
  apply Post.bind_any
  intro rest
  apply Post.bind_any
  intro _
  apply Post.bind_any
  intro stop
  exact findLoop_mem stop false _ c

/-- The path of a cursor that is not depleted is the walk of its own address. -/
theorem CursorOK.designates (h : CursorOK m cfg root c) (hd : ¬c.Depleted) {l : ℕ}
    (hl : c.level ≤ l) (hl' : l ≤ c.guardLevel) :
    ∃ q, c.path (l - 1) = some q ∧ nodeAt m root c.va l = some q := by
  obtain ⟨x, hx, hpath, hdiv⟩ := h.anchor
  obtain ⟨q, hq, hnode⟩ := hpath l hl hl'
  have hlp := h.level_pos
  have h4 := h.guard_le
  have hsame : x / pageSize (c.level + 1) = c.va / pageSize (c.level + 1) := by
    rcases Nat.lt_or_ge c.level c.guardLevel with hlt | hge
    · exact hdiv (Or.inl hlt)
    · -- at the subtree root, the span of the root decides
      have hlevel : c.level = c.guardLevel := le_antisymm h.level_le hge
      rw [hlevel]
      exact (h.spans_target hx hd).symm
  have hs := slotNo_of_div (by omega) (by omega) (div_pageSize_mono (by omega) hsame :
    x / pageSize (l + 1) = c.va / pageSize (l + 1))
  exact ⟨q, hq, by rw [← nodeAt_congr (by omega) hs, hnode]⟩

/-- What `find_next` promises, for a search of `len` bytes that returned `res` and left
the cursor at `c'`. -/
structure FindNextExact (cfg : PageTableConfig P) (m : Mem P) (root : ℕ) (c : Cursor) (len : ℕ)
    (res : Option ℕ) (c' : Cursor) : Prop where
  /-- something is found exactly if something is mapped -/
  found_iff : res.isSome = true ↔
    ∃ a, c.va ≤ a ∧ a < c.va + len ∧ translation cfg m root a ≠ none
  /-- what is found is the first mapped byte -/
  found : ∀ v, res = some v → (∀ a, c.va ≤ a → a < v → translation cfg m root a = none) ∧
    translation cfg m root v ≠ none ∧ c'.va = v
  /-- the cursor passes only bytes that are not mapped -/
  none : res = none → (∀ a, c.va ≤ a → a < c'.va → translation cfg m root a = none) ∧
    c.va + len ≤ c'.va ∧ c'.va ≤ c.barrierVa.stop
  same : SameRange c c'
  /-- the path is the walk of the current address -/
  path : ¬c'.Depleted → ∀ l, c'.level ≤ l → l ≤ c'.guardLevel →
    ∃ q, c'.path (l - 1) = some q ∧ nodeAt m root c'.va l = some q

/-- **`find_next` is exact.**  On a range with headroom, from every reached cursor and for
every length in the rest of the range, `find_next` returns, leaves the memory alone,
and reports the first mapped byte. -/
theorem find_next_exact (hW : WellFormed m) (hroot : IsRoot m cfg root)
    (h : Reached cfg m root r ops m' c) (hroom : RangeHeadroom cfg r) {len : ℕ}
    (hlen : 4096 ∣ len) (hle : c.va + len ≤ r.stop) :
    ∃ res c', c.findNext cfg m' len = .ok (res, m', c') ∧
      FindNextExact cfg m' root c len res c' := by
  have hok := h.ok hW hroot
  have hA : SearchFaults (fun _ => False) m' cfg c false :=
    ⟨Or.inr (hok.headroom hroom), fun hs => by cases hs⟩
  have hpost : Post (fun _ => False) (c.findNext cfg m' len) (fun _ => True) :=
    (post_findNextImpl hA (Or.inr ⟨hlen, by rw [hok.barrierVa]; exact hle⟩) hok.wellFormed
      hok.cursor).mono (fun _ _ => trivial)
  obtain ⟨⟨res, m₁, c'⟩, hrun, -⟩ := Post.exists_ok hpost
  obtain rfl : m₁ = m' := (findNext_mem c len).of_ok hrun
  obtain ⟨hstep, habs⟩ := (refines_findNext hok.wellFormed hok.cursor len).of_ok hrun
  refine ⟨res, c', hrun, ?_⟩
  have hpath := fun hd l hl hl' => hstep.cursor.designates (l := l) hd hl hl'
  have hsame := hstep.same
  simp only at habs hpath hsame
  -- the two outcomes of the abstract search
  generalize hva : c'.va = va' at habs
  cases habs with
  | findNone hge hstop hun =>
      refine ⟨?_, fun v hv => (Option.some_ne_none v hv.symm).elim, fun _ =>
        ⟨?_, ?_, ?_⟩, hsame, hpath⟩
      · constructor
        · intro hsome
          cases hsome
        · rintro ⟨a, ha, ha', hmapped⟩
          exact absurd (hun a ha (by omega)) hmapped
      · rw [hva]
        exact hun
      · rw [hva]
        exact hge
      · rw [hva]
        exact hstop
  | findSome hge hlt hun hmapped =>
      refine ⟨?_, fun v hv => ?_, fun hn => (Option.some_ne_none _ hn).elim, hsame, hpath⟩
      · constructor
        · intro _
          exact ⟨va', hge, hlt, hmapped⟩
        · intro _
          rfl
      · obtain rfl := Option.some.inj hv
        exact ⟨hun, hmapped, hva⟩

/-- The second page of the range is mapped, and found from the first one. -/
theorem find_next_exact_sample : ∃ (m m' : Mem Unit) (root : ℕ) (c c' : Cursor),
    Reached sampleKernelConfig m root highRange [.jump (highRange.start + 4096),
      .map ⟨⟨0x7000, 1, ()⟩, by decide⟩, .jump highRange.start] m' c ∧ c.va = highRange.start ∧
    c.findNext sampleKernelConfig m' (2 ^ 21) = .ok (some (highRange.start + 4096), m', c') ∧
    FindNextExact sampleKernelConfig m' root c (2 ^ 21) (some (highRange.start + 4096)) c' := by
  obtain ⟨root, m, m', c, hW, hroot, hreach, hc⟩ := exists_reached sampleKernelConfig highRange
    [.jump (highRange.start + 4096), .map ⟨⟨0x7000, 1, ()⟩, by decide⟩, .jump highRange.start]
    (fun m' c => c.va = highRange.start ∧ (c.findNext sampleKernelConfig m' (2 ^ 21) >>=
      fun r => .ok r.1) = .ok (some (highRange.start + 4096))) (by decide +kernel)
  obtain ⟨hva, hfound⟩ := of_decide_eq_true hc
  obtain ⟨res, c', hrun, hexact⟩ := find_next_exact hW hroot hreach rangeHeadroom_highRange
    (show 4096 ∣ 2 ^ 21 by decide) (by rw [hva]; decide)
  rw [hrun] at hfound
  obtain rfl := Except.ok.inj hfound
  exact ⟨m, m', root, c, c', hreach, hva, hrun, hexact⟩

/-- `find_next` computes the end of the current slot first of all. -/
theorem findNext_of_overflow {len : ℕ} (hlen : 4096 ∣ len) (hpos : 0 < len)
    (hle : c.va + len ≤ c.barrierVa.stop) (hstop : c.barrierVa.stop < 2 ^ 64)
    (hov : 2 ^ 64 ≤ alignDown c.va (pageSize c.level) + pageSize c.level) :
    c.findNext cfg m len = .error .overflow := by
  have hrange : c.curVaRange = .error .overflow := by
    unfold Cursor.curVaRange
    show Exec.add (alignDown c.va (pageSize c.level)) (pageSize c.level) >>= _ = _
    rw [Exec.add, if_neg (by omega)]
    rfl
  have hcheck : Exec.check (len % PAGE_SIZE = 0) = .ok () := if_pos (Nat.mod_eq_zero_of_dvd hlen)
  have hsub : Exec.sub c.barrierVa.stop c.va = .ok (c.barrierVa.stop - c.va) := if_pos (by omega)
  have hfit : Exec.check (len ≤ c.barrierVa.stop - c.va) = .ok () := if_pos (by omega)
  have hadd : Exec.add c.va len = .ok (c.va + len) := if_pos (by omega)
  unfold Cursor.findNext Cursor.findNextImpl
  rw [hcheck, hsub]
  show Exec.check (len ≤ c.barrierVa.stop - c.va) >>= _ = _
  rw [hfit, hadd]
  show Cursor.findLoop cfg (c.va + len) false false (5 * (len / PAGE_SIZE) + 4 + 1) m c = _
  rw [Cursor.findLoop, if_pos (by omega), hrange]
  rfl

/-- At the top of the address space `find_next` does not return. -/
theorem find_next_overflows : ∃ (m m' : Mem Unit) (root : ℕ) (c : Cursor),
    WellFormed m ∧ IsRoot m sampleKernelConfig root ∧
    Reached sampleKernelConfig m root topRange [.jump (2 ^ 64 - 8192)] m' c ∧
    c.va + 4096 ≤ topRange.stop ∧ c.findNext sampleKernelConfig m' 4096 = .error .overflow := by
  obtain ⟨root, m, m', c, hW, hroot, hreach, hc⟩ := exists_reached sampleKernelConfig topRange
    [.jump (2 ^ 64 - 8192)] (fun _ c => c.va = 2 ^ 64 - 8192 ∧ c.level = 2) (by decide +kernel)
  obtain ⟨hva, hl⟩ := of_decide_eq_true hc
  have hb := (hreach.ok hW hroot).barrierVa
  refine ⟨m, m', root, c, hW, hroot, hreach, by rw [hva]; decide, ?_⟩
  refine findNext_of_overflow (by decide) (by decide) ?_ ?_ ?_
  · rw [hva, hb]
    decide
  · rw [hb]
    decide
  · rw [hva, hl]
    decide

/-! ## `jump` -/

/-- What `jump` promises: it goes to a target in the range, and refuses other targets
without a change. -/
def JumpReturns (cfg : PageTableConfig P) (m : Mem P) (root : ℕ) (c : Cursor) (target : ℕ) : Prop :=
  if c.barrierVa.Contains target then
    ∃ c', c.jump target = .ok (.ok (), c') ∧ c'.va = target ∧ CursorOK m cfg root c'
  else c.jump target = .ok (.error (.invalidVaddr target), c)

/-- **`jump` to an aligned target** does what it promises, from every reached cursor,
except that a depleted cursor cannot go back into its range. -/
theorem jump_returns_iff (hW : WellFormed m) (hroot : IsRoot m cfg root)
    (h : Reached cfg m root r ops m' c) {target : ℕ} (hal : 4096 ∣ target) :
    JumpReturns cfg m' root c target ↔
      ¬(c.va = r.stop ∧ pageSize (c.guardLevel + 1) ∣ r.stop ∧ r.Contains target) := by
  have hok := h.ok hW hroot
  have hdep : (c.va = r.stop ∧ pageSize (c.guardLevel + 1) ∣ r.stop ∧ r.Contains target) ↔
      c.Depleted ∧ c.barrierVa.Contains target := by
    unfold Cursor.Depleted
    rw [hok.barrierVa, and_assoc]
  rw [hdep]
  unfold JumpReturns
  constructor
  · rintro hret ⟨hd, hmem⟩
    rw [if_pos hmem, jump_of_depleted hok.cursor hd hmem] at hret
    obtain ⟨c', hc', -⟩ := hret
    cases hc'
  · intro hnot
    obtain ⟨⟨res, c'⟩, hrun, hc', -, hres⟩ :=
      Post.exists_ok (post_jump (A := fun _ => False) hok.cursor (Or.inr ⟨hal, hnot⟩))
    simp only at hres hc'
    by_cases hmem : c.barrierVa.Contains target
    · rw [if_pos hmem] at hres ⊢
      obtain ⟨rfl, hva⟩ := hres
      exact ⟨c', hrun, hva, hc'⟩
    · rw [if_neg hmem] at hres ⊢
      obtain ⟨rfl, rfl⟩ := hres
      exact hrun

/-- A cursor on one page, moved to the end of it, in the middle of the node that it has
locked. -/
theorem jump_returns_sample : ∃ (m m' : Mem Unit) (root : ℕ) (c : Cursor),
    Reached (userPtConfig 2 (by decide)) m root ⟨0, 4096⟩ [.findNext 4096] m' c ∧ c.va = 4096 ∧
    JumpReturns (userPtConfig 2 (by decide)) m' root c 0 := by
  obtain ⟨root, m, m', c, hW, hroot, hreach, hc⟩ := exists_reached
    (userPtConfig (P := Unit) 2 (by decide)) ⟨0, 4096⟩ [.findNext 4096]
      (fun _ c => c.va = 4096 ∧ c.guardLevel = 1) (by decide +kernel)
  obtain ⟨hva, hg⟩ := of_decide_eq_true hc
  refine ⟨m, m', root, c, hreach, hva, ?_⟩
  refine (jump_returns_iff hW hroot hreach (by decide)).mpr ?_
  rintro ⟨-, hdvd, -⟩
  rw [hg] at hdvd
  revert hdvd
  decide

/-- A cursor on 2 MiB, moved to the end of the node that it has locked: `jump` back to
the start panics. -/
theorem jump_from_end_panics : ∃ (m m' : Mem Unit) (root : ℕ) (c : Cursor),
    WellFormed m ∧ IsRoot m (userPtConfig (P := Unit) 2 (by decide)) root ∧
    Reached (userPtConfig 2 (by decide)) m root ⟨0, 2 ^ 21⟩
      [.jump (2 ^ 21 - 4096), .findNext 4096] m' c ∧
    c.jump 0 = .error .assertion := by
  obtain ⟨root, m, m', c, hW, hroot, hreach, hc⟩ := exists_reached
    (userPtConfig (P := Unit) 2 (by decide)) ⟨0, 2 ^ 21⟩ [.jump (2 ^ 21 - 4096), .findNext 4096]
    (fun _ c => c.va = 2 ^ 21 ∧ c.guardLevel = 1) (by decide +kernel)
  obtain ⟨hva, hg⟩ := of_decide_eq_true hc
  have hok := hreach.ok hW hroot
  refine ⟨m, m', root, c, hW, hroot, hreach, ?_⟩
  refine jump_of_depleted hok.cursor ⟨?_, ?_⟩ ?_
  · rw [hok.barrierVa, hva]
  · rw [hok.barrierVa, hg]
    decide
  · rw [hok.barrierVa]
    decide

end

end Vostd
