/-
# The largest pages of a range

`largest_pages` of `page_table/mod.rs`: an iterator that cuts a range of virtual
addresses, mapped to a range of physical addresses of the same length, into pages that
are as large as the alignment of both addresses and the rest of the range allow.

Each call of the closure is a step on the rest of the two ranges.  `Greedy` says what the
remaining calls return; it is preserved by a step, and read off at an index it says that
the pages tile both ranges (`Greedy.item`).  Mapped one after another they translate the
virtual range to the physical one (`Greedy.layOut_eq`).
-/
import Vostd.PageTable.MapItems

namespace Vostd

open Exec

variable {P : Type}

/-! ## The code -/

/-- The variables that the closure of `largest_pages` captures. -/
structure LargestPages where
  va : ℕ
  pa : ℕ
  len : ℕ
  deriving DecidableEq, Repr

/-- The `while` loop of the closure: goes down to the first level whose pages suit.  There
is no page size at level 0. -/
def chooseLevel (va pa len : ℕ) : ℕ → Exec ℕ
  | 0 => .error .overflow
  | level + 1 =>
      if len < pageSize (level + 1) ∨ va % pageSize (level + 1) ≠ 0 ∨
          pa % pageSize (level + 1) ≠ 0 then
        chooseLevel va pa len level
      else .ok (level + 1)

/-- One call of the closure. -/
def LargestPages.next (cfg : PageTableConfig P) (s : LargestPages) :
    Exec (Option (ℕ × ℕ) × LargestPages) :=
  if s.len = 0 then .ok (none, s)
  else do
    let level ← chooseLevel s.va s.pa s.len cfg.highestTranslationLevel
    let va ← Exec.add s.va (pageSize level)
    let pa ← Exec.add s.pa (pageSize level)
    let len ← Exec.sub s.len (pageSize level)
    .ok (some (s.pa, level), ⟨va, pa, len⟩)

/-- `largest_pages`: the checks and the iterator. -/
def largestPages (cfg : PageTableConfig P) (va pa len : ℕ) : Exec LargestPages := do
  Exec.check (va % PAGE_SIZE = 0)
  Exec.check (pa % PAGE_SIZE = 0)
  Exec.check (len % PAGE_SIZE = 0)
  let stop ← Exec.add va len
  Exec.check (cfg.isValidRange ⟨va, stop⟩ = true)
  .ok ⟨va, pa, len⟩

/-- `collect` of an iterator; the first argument bounds the number of calls. -/
def LargestPages.collect (cfg : PageTableConfig P) : ℕ → LargestPages → Exec (List (ℕ × ℕ))
  | 0, _ => .error .outOfFuel
  | fuel + 1, s => do
      match ← s.next cfg with
      | (none, _) => .ok []
      | (some item, s) => do
          let items ← LargestPages.collect cfg fuel s
          .ok (item :: items)

/-! ## Choosing a level -/

/-- The pages of a level suit the two addresses and fit in the length. -/
structure Suits (va pa len level : ℕ) : Prop where
  fits : pageSize level ≤ len
  va_aligned : pageSize level ∣ va
  pa_aligned : pageSize level ∣ pa

/-- The levels that can be chosen. -/
def levelsFor (highest va pa len : ℕ) : Set ℕ :=
  {level | 1 ≤ level ∧ level ≤ highest ∧ Suits va pa len level}

/-- The loop condition says that a level does not suit. -/
theorem suits_iff {va pa len level : ℕ} : Suits va pa len level ↔
    ¬(len < pageSize level ∨ va % pageSize level ≠ 0 ∨ pa % pageSize level ≠ 0) := by
  rw [not_or, not_or, not_lt, not_not, not_not, ← Nat.dvd_iff_mod_eq_zero,
    ← Nat.dvd_iff_mod_eq_zero]
  exact ⟨fun h => ⟨h.fits, h.va_aligned, h.pa_aligned⟩, fun h => ⟨h.1, h.2.1, h.2.2⟩⟩

/-- **The loop** finds the largest level, since base pages always suit. -/
theorem chooseLevel_eq {va pa len : ℕ} (hva : 4096 ∣ va) (hpa : 4096 ∣ pa) (hlen : 4096 ≤ len)
    {highest : ℕ} (hpos : 1 ≤ highest) :
    ∃ level, chooseLevel va pa len highest = .ok level ∧
      IsGreatest (levelsFor highest va pa len) level := by
  induction highest, hpos using Nat.le_induction with
  | base =>
      have hone : Suits va pa len 1 := by
        refine ⟨?_, ?_, ?_⟩ <;> rw [pageSize_one] <;> assumption
      refine ⟨1, ?_, ⟨le_rfl, le_rfl, hone⟩, fun l hl => hl.2.1⟩
      show (if _ then _ else _) = _
      rw [if_neg (suits_iff.mp hone)]
  | succ highest hpos ih =>
      rw [chooseLevel]
      by_cases hsuits : Suits va pa len (highest + 1)
      · rw [if_neg (suits_iff.mp hsuits)]
        exact ⟨highest + 1, rfl, ⟨by omega, le_rfl, hsuits⟩, fun l hl => hl.2.1⟩
      · rw [if_pos (not_not.mp (fun hno => hsuits (suits_iff.mpr hno)))]
        obtain ⟨level, hrun, ⟨h1, hle, hs⟩, hmax⟩ := ih
        refine ⟨level, hrun, ⟨h1, by omega, hs⟩, ?_⟩
        rintro l ⟨hl1, hl, hls⟩
        -- the level above does not suit, so the search below is complete
        have hne : l ≠ highest + 1 := by
          rintro rfl
          exact hsuits hls
        exact hmax ⟨hl1, by omega, hls⟩

/-! ## The pages -/

/-- The bytes that a list of pages covers. -/
def pagesSize (items : List (ℕ × ℕ)) : ℕ := (items.map (fun item => pageSize item.2)).sum

@[simp] theorem pagesSize_nil : pagesSize [] = 0 := rfl

@[simp] theorem pagesSize_cons (item : ℕ × ℕ) (items : List (ℕ × ℕ)) :
    pagesSize (item :: items) = pageSize item.2 + pagesSize items := by
  simp [pagesSize]

/-- The pages that are cut from two ranges, each as large as can be. -/
def Greedy (highest : ℕ) : ℕ → ℕ → ℕ → List (ℕ × ℕ) → Prop
  | _, _, len, [] => len = 0
  | va, pa, len, item :: items => item.1 = pa ∧
      IsGreatest (levelsFor highest va pa len) item.2 ∧
      Greedy highest (va + pageSize item.2) (pa + pageSize item.2) (len - pageSize item.2) items

/-- **One call** at a range that is not empty. -/
theorem next_eq {cfg : PageTableConfig P} (hhigh : 1 ≤ cfg.highestTranslationLevel)
    {s : LargestPages} (hva : 4096 ∣ s.va) (hpa : 4096 ∣ s.pa) (hlen : 4096 ∣ s.len)
    (hpos : 0 < s.len) (hvaEnd : s.va + s.len < 2 ^ 64) (hpaEnd : s.pa + s.len < 2 ^ 64) :
    ∃ level, IsGreatest (levelsFor cfg.highestTranslationLevel s.va s.pa s.len) level ∧
      s.next cfg = .ok (some (s.pa, level),
        ⟨s.va + pageSize level, s.pa + pageSize level, s.len - pageSize level⟩) := by
  have hpage : 4096 ≤ s.len := Nat.le_of_dvd hpos hlen
  obtain ⟨level, hrun, hmax⟩ := chooseLevel_eq hva hpa hpage hhigh
  have hfits := hmax.1.2.2.fits
  refine ⟨level, hmax, ?_⟩
  unfold LargestPages.next
  rw [if_neg (by omega), hrun]
  show (Exec.add s.va (pageSize level) >>= _) = _
  rw [Exec.add, if_pos (by omega)]
  show (Exec.add s.pa (pageSize level) >>= _) = _
  rw [Exec.add, if_pos (by omega)]
  show (Exec.sub s.len (pageSize level) >>= _) = _
  rw [Exec.sub, if_pos hfits]
  rfl

/-- **All calls.**  The iterator ends, after at most one call for each base page. -/
theorem collect_eq {cfg : PageTableConfig P} (hhigh : 1 ≤ cfg.highestTranslationLevel) (n : ℕ) :
    ∀ s : LargestPages, s.len / 4096 ≤ n → 4096 ∣ s.va → 4096 ∣ s.pa → 4096 ∣ s.len →
    s.va + s.len < 2 ^ 64 → s.pa + s.len < 2 ^ 64 →
    ∃ items, Greedy cfg.highestTranslationLevel s.va s.pa s.len items ∧
      ∀ fuel, n < fuel → s.collect cfg fuel = .ok items := by
  induction n with
  | zero =>
      intro s hn _ _ hlen _ _
      have hzero : s.len = 0 := by omega
      refine ⟨[], hzero, ?_⟩
      intro fuel hfuel
      obtain ⟨k, rfl⟩ : ∃ k, fuel = k + 1 := ⟨fuel - 1, by omega⟩
      rw [LargestPages.collect, LargestPages.next, if_pos hzero]
      rfl
  | succ n ih =>
      intro s hn hva hpa hlen hvaEnd hpaEnd
      rcases Nat.eq_zero_or_pos s.len with hzero | hpos
      · refine ⟨[], hzero, ?_⟩
        intro fuel hfuel
        obtain ⟨k, rfl⟩ : ∃ k, fuel = k + 1 := ⟨fuel - 1, by omega⟩
        rw [LargestPages.collect, LargestPages.next, if_pos hzero]
        rfl
      · obtain ⟨level, hmax, hnext⟩ := next_eq hhigh hva hpa hlen hpos hvaEnd hpaEnd
        have hfits := hmax.1.2.2.fits
        have hpage := four_thousand_dvd_pageSize level
        have hsize : 4096 ≤ pageSize level := Nat.le_of_dvd (pageSize_pos level) hpage
        obtain ⟨items, hgreedy, hcollect⟩ := ih
          ⟨s.va + pageSize level, s.pa + pageSize level, s.len - pageSize level⟩
          (by simp only; omega) (Nat.dvd_add hva hpage) (Nat.dvd_add hpa hpage)
          (Nat.dvd_sub hlen hpage) (by simp only; omega) (by simp only; omega)
        refine ⟨(s.pa, level) :: items, ⟨rfl, hmax, hgreedy⟩, ?_⟩
        intro fuel hfuel
        obtain ⟨k, rfl⟩ : ∃ k, fuel = k + 1 := ⟨fuel - 1, by omega⟩
        rw [LargestPages.collect, hnext]
        show (LargestPages.collect cfg k _ >>= _) = _
        rw [hcollect k (by omega)]
        rfl

/-- `largest_pages` accepts aligned addresses of a valid range. -/
theorem largestPages_eq {cfg : PageTableConfig P} {va pa len : ℕ} (hva : 4096 ∣ va)
    (hpa : 4096 ∣ pa) (hlen : 4096 ∣ len) (hvalid : cfg.isValidRange ⟨va, va + len⟩ = true)
    (hvaEnd : va + len < 2 ^ 64) : largestPages cfg va pa len = .ok ⟨va, pa, len⟩ := by
  have hchecks : ∀ {a : ℕ}, 4096 ∣ a → Exec.check (a % PAGE_SIZE = 0) = .ok () :=
    fun h => if_pos (Nat.mod_eq_zero_of_dvd h)
  unfold largestPages
  rw [hchecks hva, hchecks hpa, hchecks hlen]
  show (Exec.add va len >>= _) = _
  rw [Exec.add, if_pos hvaEnd]
  show (Exec.check (cfg.isValidRange ⟨va, va + len⟩ = true) >>= _) = _
  rw [Exec.check, if_pos hvalid]
  rfl

namespace Greedy

variable {highest : ℕ}

/-- The pages cover the whole length. -/
theorem total (items : List (ℕ × ℕ)) : ∀ {va pa len : ℕ}, Greedy highest va pa len items →
    pagesSize items = len := by
  induction items with
  | nil =>
      intro va pa len h
      exact h.symm
  | cons item items ih =>
      rintro va pa len ⟨-, hmax, hrest⟩
      have hfits := hmax.1.2.2.fits
      rw [pagesSize_cons, ih hrest]
      omega

/-- **The page at an index**: it starts after the earlier pages, and is as large as can be. -/
theorem item (items : List (ℕ × ℕ)) : ∀ {va pa len : ℕ}, Greedy highest va pa len items →
    ∀ (i : ℕ) (hi : i < items.length), (items.get ⟨i, hi⟩).1 = pa + pagesSize (items.take i) ∧
      IsGreatest (levelsFor highest (va + pagesSize (items.take i))
        (pa + pagesSize (items.take i)) (len - pagesSize (items.take i)))
        (items.get ⟨i, hi⟩).2 := by
  induction items with
  | nil =>
      intro va pa len _ i hi
      exact absurd hi (Nat.not_lt_zero i)
  | cons item items ih =>
      rintro va pa len ⟨hpa, hmax, hrest⟩ i hi
      cases i with
      | zero => exact ⟨hpa, hmax⟩
      | succ i =>
          have hstep := ih hrest i (Nat.lt_of_succ_lt_succ hi)
          rw [Nat.add_assoc, Nat.add_assoc, Nat.sub_sub] at hstep
          rw [List.take_succ_cons, pagesSize_cons]
          exact hstep

/-- The levels of the pages. -/
theorem level_mem (items : List (ℕ × ℕ)) : ∀ {va pa len : ℕ}, Greedy highest va pa len items →
    ∀ x ∈ items, 1 ≤ x.2 ∧ x.2 ≤ highest ∧ x.1 + pageSize x.2 ≤ pa + len := by
  induction items with
  | nil =>
      intro va pa len _ x hx
      cases hx
  | cons item items ih =>
      rintro va pa len ⟨hpa, hmax, hrest⟩ x hx
      have hfits := hmax.1.2.2.fits
      rcases List.mem_cons.mp hx with rfl | hx
      · exact ⟨hmax.1.1, hmax.1.2.1, by omega⟩
      · obtain ⟨h1, h2, h3⟩ := ih hrest x hx
        exact ⟨h1, h2, by omega⟩

end Greedy

/-! ## Mapping the pages -/

/-- The item for a page. -/
def pageItem (prop : P) (page : ℕ × ℕ) : Item P := ⟨page.1, page.2, prop⟩

theorem itemsSize_map_pageItem (prop : P) (items : List (ℕ × ℕ)) :
    itemsSize (items.map (pageItem prop)) = pagesSize items := by
  unfold itemsSize pagesSize
  rw [List.map_map]
  rfl

namespace Greedy

variable {highest : ℕ}

theorem alignedFrom (prop : P) (items : List (ℕ × ℕ)) : ∀ {va pa len : ℕ},
    Greedy highest va pa len items → AlignedFrom va (items.map (pageItem prop)) := by
  induction items with
  | nil =>
      intro va pa len _
      trivial
  | cons item items ih =>
      rintro va pa len ⟨-, hmax, hrest⟩
      exact ⟨hmax.1.2.2.va_aligned, ih hrest⟩

/-- **The pages side by side** translate the one range to the other. -/
theorem layOut_eq (prop : P) (items : List (ℕ × ℕ)) : ∀ {va pa len : ℕ}
    (T : ByteMap (ℕ × P)), Greedy highest va pa len items → ∀ k, k < len →
    T.layOut va (items.map (pageItem prop)) (va + k) = some (pa + k, prop) := by
  induction items with
  | nil =>
      intro va pa len T h k hk
      rw [show len = 0 from h] at hk
      exact absurd hk (Nat.not_lt_zero k)
  | cons item items ih =>
      rintro va pa len T ⟨hpa, hmax, hrest⟩ k hk
      rw [List.map_cons]
      by_cases hfirst : k < pageSize item.2
      · rw [ByteMap.layOut_head T (pageItem prop item) _ hfirst]
        show some (item.1 + k, prop) = _
        rw [hpa]
      · have hrec := ih (T.override va (va + pageSize item.2) (pageBytes va item.1 prop)) hrest
          (k - pageSize item.2) (by omega)
        rw [show va + pageSize item.2 + (k - pageSize item.2) = va + k from by omega,
          show pa + pageSize item.2 + (k - pageSize item.2) = pa + k from by omega] at hrec
        exact hrec

end Greedy

/-- A cursor that stands at `va`, with room for `len` bytes. -/
structure PlacedAt (m : Mem P) (cfg : PageTableConfig P) (root : ℕ) (c : Cursor) (va len : ℕ) :
    Prop where
  wellFormed : WellFormed m
  cursor : CursorOK m cfg root c
  va_eq : c.va = va
  inside : va + len ≤ c.barrierVa.stop
  stop_lt : c.barrierVa.stop < 2 ^ 64

/-- **Mapping the pages of a range.** -/
theorem Greedy.post_mapItems {m : Mem P} {cfg : PageTableConfig P} {root : ℕ} {c : Cursor}
    {va pa len : ℕ} {items : List (ℕ × ℕ)}
    (h : Greedy cfg.highestTranslationLevel va pa len items) (hpaEnd : pa + len < 2 ^ 64)
    (hready : MapReady m) (hplace : PlacedAt m cfg root c va len)
    (hlevels : ∀ x ∈ items, x.2 ≤ c.guardLevel ∧ x.2 ≤ cfg.maxItemLevel ∧
      (cfg.topLevelCanUnmap = true ∨ x.2 ≠ 4)) (prop : P) :
    Post (fun e => e = .noMemory) (Cursor.mapItems cfg (items.map (pageItem prop)) m c) (fun r =>
      MapReady r.1 ∧ StepOK m cfg root c r.1 r.2 ∧
      (∀ k, k < len → translation cfg r.1 root (va + k) = some (pa + k, prop)) ∧
      ∀ a, ¬(va ≤ a ∧ a < va + len) → translation cfg r.1 root a = translation cfg m root a) := by
  have hsize : itemsSize (items.map (pageItem prop)) = len := by
    rw [itemsSize_map_pageItem, h.total]
  refine (Vostd.post_mapItems (items.map (pageItem prop)) m c hready hplace.wellFormed
    hplace.cursor hplace.stop_lt ?_ (by rw [hplace.va_eq]; exact h.alignedFrom prop items)
    (by rw [hsize, hplace.va_eq]; exact hplace.inside)).mono ?_
  · intro it hit
    obtain ⟨x, hx, rfl⟩ := List.mem_map.mp hit
    obtain ⟨h1, h2, h3⟩ := h.level_mem items x hx
    obtain ⟨hg, hmax, htop⟩ := hlevels x hx
    exact ⟨h1, h2, hg, hmax, htop, by simp only [pageItem]; omega⟩
  · rintro ⟨m₁, c₁⟩ ⟨hready₁, hstep, -, hT⟩
    simp only at hready₁ hstep hT ⊢
    rw [hplace.va_eq] at hT
    refine ⟨hready₁, hstep, ?_, ?_⟩
    · intro k hk
      rw [hT, h.layOut_eq prop items _ k hk]
    · intro a ha
      rw [hT, ByteMap.layOut_of_not_mem _ _ _ (by rw [hsize]; exact ha)]

/-- **`largest_pages`** is finite, tiles both ranges by pages that are each as large as can
be, and its pages, mapped one after another by a cursor at the start of the range, translate
the range of virtual addresses to the range of physical ones. -/
theorem largest_pages_tile (cfg : PageTableConfig P) (hhigh : 1 ≤ cfg.highestTranslationLevel)
    {va pa len : ℕ} (hva : PAGE_SIZE ∣ va) (hpa : PAGE_SIZE ∣ pa) (hlen : PAGE_SIZE ∣ len)
    (hvalid : cfg.isValidRange ⟨va, va + len⟩ = true)
    (hvaEnd : va + len < 2 ^ 64) (hpaEnd : pa + len < 2 ^ 64) :
    ∃ s items, largestPages cfg va pa len = .ok s ∧
      (∀ fuel, len / PAGE_SIZE < fuel → s.collect cfg fuel = .ok items) ∧
      pagesSize items = len ∧
      (∀ (i : ℕ) (hi : i < items.length),
        (items.get ⟨i, hi⟩).1 = pa + pagesSize (items.take i) ∧
        IsGreatest (levelsFor cfg.highestTranslationLevel (va + pagesSize (items.take i))
          (pa + pagesSize (items.take i)) (len - pagesSize (items.take i)))
          (items.get ⟨i, hi⟩).2) ∧
      ∀ (m : Mem P) (root : ℕ) (c : Cursor) (prop : P), MapReady m →
        PlacedAt m cfg root c va len →
        (∀ x ∈ items, x.2 ≤ c.guardLevel ∧ x.2 ≤ cfg.maxItemLevel ∧
          (cfg.topLevelCanUnmap = true ∨ x.2 ≠ NR_LEVELS)) →
        Post (fun e => e = .noMemory) (Cursor.mapItems cfg (items.map (pageItem prop)) m c)
          (fun r => ∀ k, k < len → translation cfg r.1 root (va + k) = some (pa + k, prop)) := by
  unfold PAGE_SIZE at hva hpa hlen ⊢
  obtain ⟨items, hgreedy, hcollect⟩ :=
    collect_eq hhigh (len / 4096) ⟨va, pa, len⟩ le_rfl hva hpa hlen hvaEnd hpaEnd
  refine ⟨⟨va, pa, len⟩, items, largestPages_eq hva hpa hlen hvalid hvaEnd, hcollect,
    hgreedy.total, hgreedy.item, ?_⟩
  intro m root c prop hready hplace hlevels
  refine (hgreedy.post_mapItems hpaEnd hready hplace hlevels prop).mono ?_
  rintro r ⟨-, -, hbytes, -⟩
  exact hbytes

/-- Three slots of 2 MiB. -/
def threeSlots : AddrRange := ⟨2 ^ 64 - 2 ^ 23, 2 ^ 64 - 2 ^ 21⟩

/-- The first of the three slots and one page more: a huge page and a base page. -/
theorem largest_pages_tile_sample : ∃ (m m' : Mem Unit) (root : ℕ) (c c' : Cursor),
    LargestPages.collect sampleKernelConfig 514 ⟨2 ^ 64 - 2 ^ 23, 0, 2 ^ 21 + 4096⟩ =
      .ok [(0, 2), (2 ^ 21, 1)] ∧
    Cursor.mapItems sampleKernelConfig [pageItem () (0, 2), pageItem () (2 ^ 21, 1)] m c =
      .ok (m', c') ∧
    ∀ k, k < 2 ^ 21 + 4096 →
      translation sampleKernelConfig m' root (2 ^ 64 - 2 ^ 23 + k) = some (0 + k, ()) := by
  obtain ⟨root, m, m₀, m', c, c', locked, hm, hnew, hg, hrun⟩ : ∃ root m m₀ m' c c' locked,
      emptyTable sampleKernelConfig (freshMem samplePool) = .ok (root, m) ∧
      Cursor.new sampleKernelConfig m root threeSlots = .ok (.ok (c, locked), m₀) ∧
      c.guardLevel = 2 ∧
      Cursor.mapItems sampleKernelConfig [pageItem () (0, 2), pageItem () (2 ^ 21, 1)] m₀ c =
        .ok (m', c') :=
    ⟨_, _, _, _, _, _, _, rfl, rfl, rfl, rfl⟩
  obtain ⟨hW, hroot, -⟩ := emptyTable_ok hm
  have hready := emptyTable_mapReady (by decide) hm
  obtain ⟨hgrow, ho⟩ := opened_of_new hW hroot hnew
  obtain ⟨s, items, hs, hcollect, -, -, hmap⟩ := largest_pages_tile sampleKernelConfig (by decide)
    (show PAGE_SIZE ∣ 2 ^ 64 - 2 ^ 23 by decide) (show PAGE_SIZE ∣ 0 by decide)
    (show PAGE_SIZE ∣ 2 ^ 21 + 4096 by decide) (by decide) (by decide) (by decide)
  have hpages : LargestPages.collect sampleKernelConfig 514 ⟨2 ^ 64 - 2 ^ 23, 0, 2 ^ 21 + 4096⟩ =
      .ok [(0, 2), (2 ^ 21, 1)] := rfl
  obtain rfl : ⟨2 ^ 64 - 2 ^ 23, 0, 2 ^ 21 + 4096⟩ = s := by
    have hfirst : largestPages sampleKernelConfig (2 ^ 64 - 2 ^ 23) 0 (2 ^ 21 + 4096) =
        .ok ⟨2 ^ 64 - 2 ^ 23, 0, 2 ^ 21 + 4096⟩ := rfl
    rw [hfirst] at hs
    exact Except.ok.inj hs
  have hsame := hcollect 514 (by decide)
  rw [hpages] at hsame
  obtain rfl := Except.ok.inj hsame
  refine ⟨m₀, m', root, c, c', hpages, hrun, ?_⟩
  refine (hmap m₀ root c () (hready.of_grow hW hgrow)
    ⟨hgrow.wellFormed hW, ho.cursor, ho.va, ?_, ?_⟩ ?_).of_ok hrun
  · rw [ho.barrierVa]
    decide
  · rw [ho.barrierVa]
    decide
  · intro x hx
    rcases List.mem_pair.mp hx with rfl | rfl
    · exact ⟨hg.ge, by decide, Or.inr (by decide)⟩
    · exact ⟨by rw [hg]; decide, by decide, Or.inr (by decide)⟩

/-- The kernel's configuration where pages of the top level can be mapped. -/
def hugeKernelConfig : PageTableConfig Unit := kernelPtConfig 4 (by decide) (fun _ => false)

/-- The first two slots of the top level in the upper half. -/
def twoTopSlots : AddrRange := ⟨2 ^ 64 - 2 ^ 47, 2 ^ 64 - 2 ^ 47 + 2 ^ 40⟩

/-- **A page of the top level** cannot replace a node of a table that keeps its top-level
nodes: the cursor spans the range, and mapping the page stops. -/
theorem top_level_page_panics : ∃ (m m' : Mem Unit) (root : ℕ) (c : Cursor),
    WellFormed m ∧ IsRoot m hugeKernelConfig root ∧
    Reached hugeKernelConfig m root twoTopSlots
      [.map ⟨⟨0, 1, ()⟩, by decide⟩, .jump (2 ^ 64 - 2 ^ 47)] m' c ∧
    c.va = 2 ^ 64 - 2 ^ 47 ∧ c.guardLevel = 4 ∧
    LargestPages.collect hugeKernelConfig (2 ^ 27 + 1) ⟨2 ^ 64 - 2 ^ 47, 0, 2 ^ 39⟩ =
      .ok [(0, 4)] ∧
    Cursor.mapItems hugeKernelConfig [pageItem () (0, 4)] m' c = .error .assertion := by
  obtain ⟨root, m, m', c, hW, hroot, hreach, hc⟩ := exists_reached hugeKernelConfig twoTopSlots
    [.map ⟨⟨0, 1, ()⟩, by decide⟩, .jump (2 ^ 64 - 2 ^ 47)]
    (fun m' c => c.va = 2 ^ 64 - 2 ^ 47 ∧ c.guardLevel = 4 ∧
      (Cursor.mapItems hugeKernelConfig [pageItem () (0, 4)] m' c >>= fun _ => .ok ()) =
        .error .assertion) (by decide +kernel)
  obtain ⟨hva, hg, hrun⟩ := of_decide_eq_true hc
  exact ⟨m, m', root, c, hW, hroot, hreach, hva, hg, rfl, error_of_bind_ok hrun⟩

end Vostd
