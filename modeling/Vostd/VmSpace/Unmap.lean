/-
# `unmap` is exact and asks for every flush

`unmap` calls `take_next` until nothing is left in its range.  Each call takes the pages of
one slot: a base page, or all the pages of a subtree (`TakesPages`).  The loop keeps that the
translation is the old one without the part that was passed, that the counter is the number of
pages that were mapped there, and that the flusher covers each of them (`Removing`).
-/
import Vostd.VmSpace.CursorMut
import Vostd.PageTable.PageCount

namespace Vostd

open Exec

variable {P : Type}

/-! ## One fragment -/

/-- The fragment is about the `n` pages from `v` on. -/
def PageTableFrag.Spans (v n : ℕ) : PageTableFrag P → Prop
  | .mapped va _ => va = v ∧ n = 1
  | .strayPageTable _ va len _ => va = v ∧ len = n * PAGE_SIZE

/-- One step of a removal from `va` to `stop`: the first `n` pages in which something may be
mapped, those from `v` on, are taken. -/
structure TakesPages (T T' : ByteMap (ℕ × P)) (va stop v n : ℕ) (frag : PageTableFrag P) :
    Prop where
  le : va ≤ v
  aligned : PAGE_SIZE ∣ v
  pos : 0 < n
  le_stop : v + n * PAGE_SIZE ≤ stop
  unmapped : T.Unmapped va v
  erased : T' = T.erase v (v + n * PAGE_SIZE)
  pages : frag.pages = T.mappedPages PAGE_SIZE v n
  spans : frag.Spans v n

/-- Every node can take another reference. -/
def Mem.NodeCountsFit (m : Mem P) : Prop := ∀ p i q, Owns m p i q → m.refCount q < REF_COUNT_MAX

section

variable {m m' : Mem P} {cfg : PageTableConfig P} {root : ℕ} {c c' : Cursor}

/-- What `take_next` takes in a table of base pages. -/
theorem TakeSpec.takesPages {len : ℕ} {frag : PageTableFrag P} (hW : WellFormed m)
    (h : CursorOK m cfg root c) (hmax : cfg.maxItemLevel ≤ 1)
    (hspec : TakeSpec m cfg root c len (some frag, m', c')) :
    ∃ v n, c'.va = v + n * PAGE_SIZE ∧
      TakesPages (translation cfg m root) (translation cfg m' root) c.va (c.va + len) v n frag := by
  obtain ⟨-, -, v, m₁, c₁, hf, hres⟩ := hspec
  rcases hres with ⟨-, hr⟩ | ⟨q, n, -, hfits, ho, hne, hfrag⟩
  · cases hr
  simp only at ho hfrag
  have hW₁ : WellFormed m₁ := hf.grow.wellFormed hW
  have hT : translation cfg m₁ root = translation cfg m root :=
    hf.grow.translation_eq hW h.isRoot
  have hlp := ho.slot.position.level_pos
  have hsize : pageSize c₁.level = 512 ^ (c₁.level - 1) * PAGE_SIZE := by
    rw [PAGE_SIZE, ← pageSize_eq_pages, Nat.sub_add_cancel hlp]
  refine ⟨c₁.va, 512 ^ (c₁.level - 1), by rw [← hsize, ho.va_eq], hf.le_va h,
    (four_thousand_dvd_pageSize _).trans ho.start, Nat.pow_pos (by decide), ?_,
    hf.translation_unmapped, ?_, ?_, ?_⟩
  · rw [← hsize]
    exact hfits.le
  · rw [← hsize, ← hT]
    exact ho.translation_eq hW₁ ((hf.grow.keeps hW).isRoot h.isRoot)
  · rw [← hT]
    exact ho.pages_eq hW₁ hmax hfrag.symm
  · cases he : n.entries (pteIndex c₁.va c₁.level) with
    | absent => exact absurd he hne
    | frame pa prop =>
        rw [he] at hfrag
        obtain rfl := Option.some.inj hfrag
        have hle := ((hW₁.ok q n ho.slot.position.node).leaf _ pa prop ho.slot.slot he).2
        rw [ho.slot.level, ho.slot.cfg_eq] at hle
        exact ⟨rfl, by rw [show c₁.level - 1 = 0 by omega]; rfl⟩
    | table pt =>
        rw [he] at hfrag
        obtain rfl := Option.some.inj hfrag
        exact ⟨rfl, hsize⟩

theorem TakeSpec.nodeCountsFit {len : ℕ} {frag : Option (PageTableFrag P)} (hW : WellFormed m)
    (hcounts : m.NodeCountsFit) (hspec : TakeSpec m cfg root c len (frag, m', c')) :
    m'.NodeCountsFit := by
  obtain ⟨-, -, v, m₁, c₁, hf, hres⟩ := hspec
  have hcounts₁ : m₁.NodeCountsFit := hf.grow.refCount_lt hW (by decide) hcounts
  rcases hres with ⟨-, hr⟩ | ⟨q, n, -, -, ho, -, -⟩
  · cases hr
    exact hcounts₁
  · exact ho.refCount_lt (hf.grow.wellFormed hW) hcounts₁

/-- A search that finds nothing to take has nothing mapped before it. -/
theorem TakeSpec.takesNothing {len : ℕ} (hW : WellFormed m) (h : CursorOK m cfg root c)
    (hspec : TakeSpec m cfg root c len (none, m', c')) :
    translation cfg m' root = translation cfg m root ∧
      (translation cfg m root).Unmapped c.va (c.va + len) := by
  obtain ⟨-, -, v, m₁, c₁, hf, hres⟩ := hspec
  rcases hres with ⟨rfl, hr⟩ | ⟨q, n, -, -, -, hne, hfrag⟩
  · cases hr
    refine ⟨hf.grow.translation_eq hW h.isRoot, ?_⟩
    exact hf.translation_unmapped.mono le_rfl (hf.done rfl)
  · exact absurd hfrag.symm (fragOf_ne_none hne)

/-- A cursor in the lower half has headroom. -/
theorem CursorPath.headroom_of_base_zero (h : CursorPath m cfg root c) (hbase : cfg.base = 0) :
    c.Headroom := by
  have hne := h.nonempty
  have hlast := (h.managed (c.barrierVa.stop - 1) ⟨by omega, by omega⟩).base_le
  have hsize := pageSize_le h.guard_le
  rw [pageSize_four] at hsize
  unfold Cursor.Headroom
  omega

end

/-! ## The loop -/

/-- The state of a removal that started at `va₀` with the translation `T₀`. -/
structure Removing (T₀ : ByteMap (ℕ × P)) (va₀ num : ℕ) (T : ByteMap (ℕ × P)) (va : ℕ)
    (f : TlbFlusher) : Prop where
  pages : ∃ k, va = va₀ + k * PAGE_SIZE ∧ num = T₀.mappedPages PAGE_SIZE va₀ k
  erased : T = T₀.erase va₀ va
  size_le : f.opsStack.size ≤ FLUSH_ALL_OPS_THRESHOLD
  covers : ∀ a, va₀ ≤ a → a < va → T₀ a ≠ none → f.opsStack.Covers (a / PAGE_SIZE)

/-- The operation that `unmap` issues for a fragment. -/
def PageTableFrag.flushOp : PageTableFrag P → TlbFlushOp
  | .mapped va _ => .address va
  | .strayPageTable _ va len _ => .range ⟨va, va + len⟩

/-- The operation covers every page of the fragment. -/
theorem PageTableFrag.Spans.covers {v n a : ℕ} {frag : PageTableFrag P} (h : frag.Spans v n)
    (hv : PAGE_SIZE ∣ v) (hlo : v ≤ a) (hhi : a < v + n * PAGE_SIZE) :
    frag.flushOp.Covers (a / PAGE_SIZE) := by
  cases frag with
  | mapped va item =>
      obtain ⟨rfl, rfl⟩ := h
      obtain ⟨k, rfl⟩ := hv
      show PAGE_SIZE * k / PAGE_SIZE = a / PAGE_SIZE
      unfold PAGE_SIZE at *
      omega
  | strayPageTable pt va len k =>
      obtain ⟨rfl, rfl⟩ := h
      exact ⟨a, ⟨hlo, hhi⟩, rfl⟩

namespace Removing

variable {T₀ T T' : ByteMap (ℕ × P)} {va₀ num va stop v n : ℕ} {f : TlbFlusher}
  {frag : PageTableFrag P}

theorem le (h : Removing T₀ va₀ num T va f) : va₀ ≤ va := by
  obtain ⟨k, rfl, -⟩ := h.pages
  exact Nat.le_add_right _ _

/-- What is beyond the passed part is as it was. -/
theorem eq_of_le (h : Removing T₀ va₀ num T va f) {a : ℕ} (ha : va ≤ a) : T a = T₀ a := by
  rw [h.erased, ByteMap.erase, ByteMap.override_of_not_mem _ _ (by omega)]

theorem start (hsize : f.opsStack.size ≤ FLUSH_ALL_OPS_THRESHOLD) :
    Removing T va 0 T va f where
  pages := ⟨0, by omega, rfl⟩
  erased := (ByteMap.erase_of_unmapped (fun a hlo hhi => absurd hhi (by omega))).symm
  size_le := hsize
  covers := fun a hlo hhi => absurd hhi (by omega)

/-- The counter stays below the number of pages. -/
theorem num_le (h : Removing T₀ va₀ num T va f) : num * PAGE_SIZE ≤ va - va₀ := by
  obtain ⟨k, rfl, rfl⟩ := h.pages
  rw [Nat.add_sub_cancel_left]
  exact Nat.mul_le_mul_right _ (ByteMap.mappedPages_le _ _)

/-- **One fragment.**  The flusher gets its operation, the counter its pages. -/
theorem step (h : Removing T₀ va₀ num T va f) (hal : PAGE_SIZE ∣ va₀)
    (ht : TakesPages T T' va stop v n frag) :
    Post (fun _ => False) (f.issueTlbFlush frag.flushOp) (fun f' =>
      f'.dispatched = f.dispatched ∧
      Removing T₀ va₀ (num + frag.pages) T' (v + n * PAGE_SIZE) f') := by
  have hle := h.le
  have hvle := ht.le
  have hT₀ : T₀.Unmapped va v := fun a hlo hhi => by
    rw [← h.eq_of_le hlo]
    exact ht.unmapped a hlo hhi
  refine (post_issueTlbFlush h.size_le _).mono ?_
  rintro f' ⟨hdisp, hsize, hcov⟩
  refine ⟨hdisp, ?_, ?_, hsize, ?_⟩
  · -- the pages passed before, those without a mapping, and those of the fragment
    obtain ⟨k, hk, hnum⟩ := h.pages
    obtain ⟨j, hj⟩ : ∃ j, v = va + j * PAGE_SIZE := by
      obtain ⟨x, hx⟩ := ht.aligned
      obtain ⟨y, hy⟩ := hal
      refine ⟨x - (y + k), ?_⟩
      unfold PAGE_SIZE at *
      omega
    refine ⟨k + j + n, ?_, ?_⟩
    · rw [hj, hk]
      ring
    · have hgap : T₀.mappedPages PAGE_SIZE va j = 0 := by
        apply ByteMap.mappedPages_unmapped
        · rw [← hj]
          exact hT₀
        · decide
      have hsame : T.mappedPages PAGE_SIZE v n = T₀.mappedPages PAGE_SIZE v n := by
        apply ByteMap.mappedPages_congr
        intro i _
        rw [h.eq_of_le (by omega)]
      rw [ByteMap.mappedPages_add, ByteMap.mappedPages_add, ← hk, hgap, Nat.add_zero, ← hnum,
        ht.pages, hsame]
      congr 2
      rw [hj, hk]
      ring
  · calc T' = T.erase v (v + n * PAGE_SIZE) := ht.erased
      _ = (T.erase va v).erase v (v + n * PAGE_SIZE) := by
          rw [ByteMap.erase_of_unmapped ht.unmapped]
      _ = T.erase va (v + n * PAGE_SIZE) := ByteMap.erase_erase T hvle (Nat.le_add_right v _)
      _ = (T₀.erase va₀ va).erase va (v + n * PAGE_SIZE) := by rw [← h.erased]
      _ = T₀.erase va₀ (v + n * PAGE_SIZE) := ByteMap.erase_erase T₀ hle (by omega)
  · intro a hlo hhi hmapped
    rcases Nat.lt_or_ge a va with hlt | hge
    · exact hcov _ (Or.inl (h.covers a hlo hlt hmapped))
    · rcases Nat.lt_or_ge a v with hlt' | hge'
      · exact absurd (hT₀ a hge hlt') hmapped
      · exact hcov _ (Or.inr (ht.spans.covers ht.aligned hge' hhi))

/-- Nothing is left. -/
theorem finish (h : Removing T₀ va₀ num T va f) (hle : va ≤ stop) (hal : PAGE_SIZE ∣ va₀)
    (hal' : PAGE_SIZE ∣ stop) (hun : T.Unmapped va stop) : Removing T₀ va₀ num T stop f := by
  have hle₀ := h.le
  have hT₀ : T₀.Unmapped va stop := fun a hlo hhi => by
    rw [← h.eq_of_le hlo]
    exact hun a hlo hhi
  refine ⟨?_, ?_, h.size_le, ?_⟩
  · obtain ⟨k, hk, hnum⟩ := h.pages
    obtain ⟨j, hj⟩ : ∃ j, stop = va + j * PAGE_SIZE := by
      obtain ⟨x, hx⟩ := hal'
      obtain ⟨y, hy⟩ := hal
      refine ⟨x - (y + k), ?_⟩
      unfold PAGE_SIZE at *
      omega
    refine ⟨k + j, by rw [hj, hk]; ring, ?_⟩
    rw [ByteMap.mappedPages_add, ← hk, ← hnum, ByteMap.mappedPages_unmapped (by rwa [← hj])
      (by decide), Nat.add_zero]
  · rw [← ByteMap.erase_erase T₀ hle₀ hle, ← h.erased, ByteMap.erase_of_unmapped hun]
  · intro a hlo hhi hmapped
    rcases Nat.lt_or_ge a va with hlt | hge
    · exact h.covers a hlo hlt hmapped
    · exact absurd (hT₀ a hge hhi) hmapped

end Removing

namespace VmSpace.CursorMut

variable {cfg : PageTableConfig P} {root endVa va₀ : ℕ} {T₀ : ByteMap (ℕ × P)}

/-- What a removal needs of the memory and the cursor. -/
structure Removable (cfg : PageTableConfig P) (m : Mem P) (root : ℕ) (c : Cursor) : Prop where
  wellFormed : WellFormed m
  cursor : CursorOK m cfg root c
  headroom : c.Headroom
  counts : m.NodeCountsFit

/-- In a table of base pages that can be unmapped everywhere, `take_next` returns. -/
theorem Removable.takeFaults {m : Mem P} {c : Cursor} {len : ℕ} (h : Removable cfg m root c)
    (hmax : cfg.maxItemLevel ≤ 1) (hcan : cfg.topLevelCanUnmap = true)
    (hlen : PAGE_SIZE ∣ len) (hle : c.va + len ≤ c.barrierVa.stop) :
    TakeFaults (fun _ => False) m cfg c len :=
  ⟨⟨Or.inr h.headroom, fun _ hl => absurd hl (by omega)⟩, Or.inr ⟨hlen, hle⟩,
    Or.inr ⟨hcan, h.counts⟩⟩

/-- The rest of a removal, after the flush of what was taken is issued. -/
theorem post_unmapRest {fuel num n v : ℕ} {m m₁ : Mem P} {s : CursorMut} {c₁ : Cursor}
    {frag : PageTableFrag P} (hal : PAGE_SIZE ∣ va₀)
    (ih : ∀ (num : ℕ) (m : Mem P) (s : CursorMut), Removable cfg m root s.ptCursor →
      s.virtAddr ≤ endVa → endVa ≤ s.ptCursor.barrierVa.stop →
      (endVa - s.virtAddr) / PAGE_SIZE < fuel →
      Removing T₀ va₀ num (translation cfg m root) s.virtAddr s.flusher →
      Post (fun _ => False) (unmapLoop cfg endVa fuel num m s) (fun r =>
        r.2.2.flusher.dispatched = s.flusher.dispatched ∧
        Removing T₀ va₀ r.1 (translation cfg r.2.1 root) endVa r.2.2.flusher))
    (hrem : Removable cfg m₁ root c₁) (hle : s.virtAddr ≤ endVa)
    (hstop : endVa ≤ c₁.barrierVa.stop) (hfuel : (endVa - s.virtAddr) / PAGE_SIZE < fuel + 1)
    (hinv : Removing T₀ va₀ num (translation cfg m root) s.virtAddr s.flusher)
    (ht : TakesPages (translation cfg m root) (translation cfg m₁ root) s.virtAddr endVa v n frag)
    (hva : c₁.va = v + n * PAGE_SIZE) :
    Post (fun _ => False) (s.flusher.issueTlbFlush frag.flushOp >>= fun f =>
        unmapLoop cfg endVa fuel (num + frag.pages) m₁ ⟨c₁, f⟩) (fun r =>
      r.2.2.flusher.dispatched = s.flusher.dispatched ∧
      Removing T₀ va₀ r.1 (translation cfg r.2.1 root) endVa r.2.2.flusher) := by
  have hpos := ht.pos
  have hvle := ht.le
  have hlast := ht.le_stop
  refine Post.bind (hinv.step hal ht) ?_
  rintro f ⟨hdisp, hinv₁⟩
  rw [← hva] at hinv₁
  refine (ih _ m₁ ⟨c₁, f⟩ hrem ?_ hstop ?_ hinv₁).mono ?_
  · show c₁.va ≤ endVa
    omega
  · have hmul : PAGE_SIZE ≤ n * PAGE_SIZE := Nat.le_mul_of_pos_left _ hpos
    show (endVa - c₁.va) / PAGE_SIZE < fuel
    unfold virtAddr at hle hfuel hvle
    unfold PAGE_SIZE at *
    omega
  · rintro r ⟨hdisp₁, hinv₂⟩
    exact ⟨hdisp₁.trans hdisp, hinv₂⟩

/-- **The loop of `unmap`** returns, and leaves nothing of its range. -/
theorem post_unmapLoop (hmax : cfg.maxItemLevel ≤ 1) (hcan : cfg.topLevelCanUnmap = true)
    (hal : PAGE_SIZE ∣ va₀) (hend : PAGE_SIZE ∣ endVa) (fuel : ℕ) :
    ∀ (num : ℕ) (m : Mem P) (s : CursorMut), Removable cfg m root s.ptCursor →
    s.virtAddr ≤ endVa → endVa ≤ s.ptCursor.barrierVa.stop →
    (endVa - s.virtAddr) / PAGE_SIZE < fuel →
    Removing T₀ va₀ num (translation cfg m root) s.virtAddr s.flusher →
    Post (fun _ => False) (unmapLoop cfg endVa fuel num m s) (fun r =>
      r.2.2.flusher.dispatched = s.flusher.dispatched ∧
      Removing T₀ va₀ r.1 (translation cfg r.2.1 root) endVa r.2.2.flusher) := by
  induction fuel with
  | zero =>
      intro num m s _ _ _ hfuel
      exact absurd hfuel (Nat.not_lt_zero _)
  | succ fuel ih =>
      intro num m s hrem hle hstop hfuel hinv
      have hlast : endVa < 2 ^ 64 := by
        by_contra hbig
        exact no_headroom (show 2 ^ 64 ≤ s.ptCursor.barrierVa.stop by omega) hrem.headroom
      rw [unmapLoop]
      refine Post.bind (post_sub (fun hlt => absurd hle (not_le.mpr hlt))) ?_
      rintro _ ⟨rfl, -⟩
      have hva : s.ptCursor.va + (endVa - s.virtAddr) = endVa := by
        unfold virtAddr at hle ⊢
        omega
      have hfaults := hrem.takeFaults hmax hcan
        (Nat.dvd_sub hend hrem.cursor.va_aligned : PAGE_SIZE ∣ endVa - s.virtAddr) (by omega)
      refine Post.bind ((post_takeNext hfaults hrem.wellFormed hrem.cursor).and
        (refines_takeNext hfaults hrem.wellFormed hrem.cursor)) ?_
      rintro ⟨frag, m₁, c₁⟩ ⟨hspec, hstep, -⟩
      cases frag with
      | none =>
          obtain ⟨hT, hun⟩ := hspec.takesNothing hrem.wellFormed hrem.cursor
          rw [hva] at hun
          refine ⟨rfl, ?_⟩
          show Removing T₀ va₀ num (translation cfg m₁ root) endVa s.flusher
          rw [hT]
          exact hinv.finish hle hal hend hun
      | some frag =>
          obtain ⟨v, n, hva₁, ht⟩ := hspec.takesPages hrem.wellFormed hrem.cursor hmax
          rw [hva] at ht
          have hstop₁ := ht.le_stop
          have hrem₁ : Removable cfg m₁ root c₁ :=
            ⟨hstep.wellFormed, hstep.cursor, hstep.same.headroom_iff.mpr hrem.headroom,
              hspec.nodeCountsFit hrem.wellFormed hrem.counts⟩
          have hb : c₁.barrierVa = s.ptCursor.barrierVa := hstep.same.barrierVa
          have hrest := post_unmapRest hal ih hrem₁ hle (by rw [hb]; exact hstop) hfuel hinv ht hva₁
          -- the counter is a number of pages below `endVa`
          have hsum : num + frag.pages < 2 ^ 64 := by
            obtain ⟨f, -, -, hinv₁⟩ := Post.exists_ok (hinv.step hal ht)
            have hnum := hinv₁.num_le
            unfold PAGE_SIZE at hnum hstop₁
            omega
          have hadd : Exec.add num frag.pages = .ok (num + frag.pages) := if_pos hsum
          cases frag with
          | mapped va item =>
              show Post _ (Exec.add num 1 >>= _) _
              rw [show Exec.add num 1 = .ok (num + 1) from hadd]
              exact hrest
          | strayPageTable pt va size k =>
              obtain ⟨rfl, rfl⟩ := ht.spans
              show Post _ (Exec.add num k >>= _) _
              rw [show Exec.add num k = .ok (num + k) from hadd]
              show Post _ (Exec.add va (n * PAGE_SIZE) >>= _) _
              rw [show Exec.add va (n * PAGE_SIZE) = .ok (va + n * PAGE_SIZE) from
                if_pos (by omega)]
              exact hrest

/-- What `unmap` of `len` bytes does: it erases them, counts the pages that were mapped, and
dispatches a stack that covers every page whose translation it changed. -/
structure UnmapExact (cfg : PageTableConfig P) (m : Mem P) (root : ℕ) (s : CursorMut) (len : ℕ)
    (num : ℕ) (m' : Mem P) (s' : CursorMut) : Prop where
  erased : translation cfg m' root =
    (translation cfg m root).erase s.virtAddr (s.virtAddr + len)
  count : num = (translation cfg m root).mappedPages PAGE_SIZE s.virtAddr (len / PAGE_SIZE)
  flushed : ∃ stack, s'.flusher.dispatched = stack :: s.flusher.dispatched ∧
    ∀ a, translation cfg m' root a ≠ translation cfg m root a → stack.Covers (a / PAGE_SIZE)

/-- **`unmap`** returns and is exact. -/
theorem post_unmap {m : Mem P} {s : CursorMut} {len : ℕ} (hmax : cfg.maxItemLevel ≤ 1)
    (hcan : cfg.topLevelCanUnmap = true) (hrem : Removable cfg m root s.ptCursor)
    (hsize : s.flusher.opsStack.size ≤ FLUSH_ALL_OPS_THRESHOLD) (hlen : PAGE_SIZE ∣ len)
    (hle : s.virtAddr + len ≤ s.ptCursor.barrierVa.stop) :
    Post (fun _ => False) (s.unmap cfg m len) (fun r =>
      UnmapExact cfg m root s len r.1 r.2.1 r.2.2) := by
  have hal : PAGE_SIZE ∣ s.virtAddr := hrem.cursor.va_aligned
  unfold unmap
  refine Post.bind (post_check (fun hmod => absurd (Nat.mod_eq_zero_of_dvd hlen) hmod)) ?_
  intro _ _
  refine Post.bind (post_add (fun hov => absurd hrem.headroom (no_headroom (by omega)))) ?_
  rintro _ ⟨rfl, -⟩
  refine Post.bind (post_check (fun hout => absurd hle hout)) ?_
  intro _ _
  refine Post.bind (post_unmapLoop hmax hcan hal (Nat.dvd_add hal hlen) _ 0 m s hrem
    (Nat.le_add_right _ _) hle (by rw [Nat.add_sub_cancel_left]; omega)
    (Removing.start hsize)) ?_
  rintro ⟨num, m₁, s₁⟩ ⟨hdisp, hinv⟩
  simp only at hdisp hinv
  refine ⟨hinv.erased, ?_, s₁.flusher.opsStack, by rw [← hdisp]; rfl, ?_⟩
  · obtain ⟨k, hk, hnum⟩ := hinv.pages
    rw [Nat.add_left_cancel hk, Nat.mul_div_cancel _ (by decide), ← hnum]
  · intro a hne
    -- only the erased addresses translate differently
    by_cases ha : s.virtAddr ≤ a ∧ a < s.virtAddr + len
    · refine hinv.covers a ha.1 ha.2 (fun hnone => hne ?_)
      rw [hinv.erased, ByteMap.erase, ByteMap.override_of_mem _ _ ha, hnone]
    · rw [hinv.erased, ByteMap.erase, ByteMap.override_of_not_mem _ _ ha] at hne
      exact absurd rfl hne

/-! ## `map` -/

/-- **`map`** over a mapped page dispatches a stack that covers the page. -/
theorem post_map_flushes {m : Mem P} {s : CursorMut} (hmax : 1 ≤ cfg.maxItemLevel)
    (hW : WellFormed m) (h : CursorOK m cfg root s.ptCursor)
    (hsize : s.flusher.opsStack.size ≤ FLUSH_ALL_OPS_THRESHOLD) (pa : ℕ) (prop : P)
    (hmapped : translation cfg m root s.virtAddr ≠ none) :
    Post Fault.IsPanic (s.map cfg m pa prop) (fun r =>
      ∃ stack, r.2.flusher.dispatched = stack :: s.flusher.dispatched ∧
        stack.Covers (s.virtAddr / PAGE_SIZE)) := by
  unfold map
  refine Post.bind (refines_map hW h ⟨⟨pa, 1, prop⟩, hmax⟩) ?_
  rintro ⟨frag, m₁, c₁⟩ ⟨-, habs⟩
  match frag with
  | none =>
      -- nothing was replaced, so nothing was mapped
      generalize translation cfg m₁ root = T₁ at habs
      generalize c₁.va = va₁ at habs
      simp only at habs
      cases habs with
      | map _ _ hfrag =>
          exact absurd (hfrag s.virtAddr le_rfl (Nat.lt_add_of_pos_right (pageSize_pos _))) hmapped
  | some (.mapped va item) =>
      refine Post.bind ((post_issueTlbFlush hsize _).allow (fun _ hf => hf.elim)) ?_
      rintro f ⟨hdisp, -, hcov⟩
      refine ⟨f.opsStack, ?_, hcov _ (Or.inr rfl)⟩
      rw [← hdisp]
      rfl
  | some (.strayPageTable pt va size k) => trivial

/-! ## The flusher of a reached cursor -/

/-- A stack that operations made. -/
def FlusherMade (f : TlbFlusher) : Prop := ∃ pages, OpsStack.Made f.opsStack pages

theorem FlusherMade.step {x y : Mem P × CursorMut} (h : FlusherMade x.2.flusher)
    (hstep : Step cfg x y) : FlusherMade y.2.flusher := by
  obtain ⟨pages, hmade⟩ := h
  cases hstep with
  | cursor => exact ⟨pages, hmade⟩
  | issue hissue =>
      obtain ⟨stack, hpush, heq⟩ := bind_eq_ok.mp hissue
      cases heq
      exact ⟨_, hmade.push hpush⟩
  | dispatch => exact ⟨_, hmade.clear⟩

theorem FlusherMade.steps {x y : Mem P × CursorMut} (h : FlusherMade x.2.flusher)
    (hsteps : Steps cfg x y) : FlusherMade y.2.flusher := by
  induction hsteps with
  | refl => exact h
  | tail _ hstep ih => exact ih.step hstep

theorem Reached.flusher (hmax : 1 ≤ cfg.maxItemLevel) {m m' : Mem P} {r : AddrRange}
    {ops : List (Op P)} {s : CursorMut} (h : Reached cfg m root r ops m' s) :
    FlusherMade s.flusher := by
  obtain ⟨c₀, locked, m₀, -, hrun⟩ := h
  exact FlusherMade.steps ⟨∅, OpsStack.Made.new⟩ (steps_run hmax ops m₀ _ hrun)

/-! ## No stale translation -/

/-- **No flush is forgotten.**  From every reached cursor of a user address space whose nodes
can take another reference, `unmap` of whole pages in the cursor's range returns and is exact;
a `map` over a mapped page dispatches a flush of the page; and a stack covers what it was asked
for since it was cleared, always inside its array. -/
theorem unmap_exact_flushed {highest : ℕ} (hh : highest ≤ 4) {m m' : Mem P} {r : AddrRange}
    {ops : List (Op P)} {s : CursorMut} (hW : WellFormed m)
    (hroot : IsRoot m (userPtConfig highest hh) root)
    (h : Reached (userPtConfig highest hh) m root r ops m' s) (hcounts : m'.NodeCountsFit) :
    (∀ len, PAGE_SIZE ∣ len → s.virtAddr + len ≤ s.ptCursor.barrierVa.stop →
      ∃ num m₂ s₂, s.unmap (userPtConfig highest hh) m' len = .ok (num, m₂, s₂) ∧
        UnmapExact (userPtConfig highest hh) m' root s len num m₂ s₂) ∧
    (∀ pa prop m₂ s₂, s.map (userPtConfig highest hh) m' pa prop = .ok (m₂, s₂) →
      translation (userPtConfig highest hh) m' root s.virtAddr ≠ none →
      ∃ stack, s₂.flusher.dispatched = stack :: s.flusher.dispatched ∧
        stack.Covers (s.virtAddr / PAGE_SIZE)) ∧
    (∀ stack pages, OpsStack.Made stack pages → (∀ page ∈ pages, stack.Covers page) ∧
      (∀ op, ∃ t, stack.push op = .ok t) ∧
      ∀ other pages', OpsStack.Made other pages' → ∃ t, stack.pushFrom other = .ok t) := by
  obtain ⟨ops', hreach⟩ := h.cursor le_rfl
  have hok := hreach.ok hW hroot
  obtain ⟨pages, hmade⟩ := h.flusher le_rfl
  refine ⟨?_, ?_, ?_⟩
  · intro len hlen hle
    have hrem : Removable (userPtConfig highest hh) m' root s.ptCursor :=
      ⟨hok.wellFormed, hok.cursor, hok.cursor.headroom_of_base_zero rfl, hcounts⟩
    obtain ⟨⟨num, m₂, s₂⟩, hrun, hexact⟩ :=
      Post.exists_ok (post_unmap le_rfl rfl hrem hmade.size_le hlen hle)
    exact ⟨num, m₂, s₂, hrun, hexact⟩
  · intro pa prop m₂ s₂ hrun hmapped
    exact (post_map_flushes le_rfl hok.wellFormed hok.cursor hmade.size_le pa prop
      hmapped).of_ok hrun
  · intro stack pages hstack
    refine ⟨hstack.covers, ?_, ?_⟩
    · intro op
      obtain ⟨t, ht, -⟩ := Post.exists_ok (OpsStack.post_push hstack.size_le op)
      exact ⟨t, ht⟩
    · intro other _ _
      obtain ⟨t, ht, -⟩ := Post.exists_ok (OpsStack.post_pushFrom hstack.size_le other)
      exact ⟨t, ht⟩

/-- The nodes of a new table have one reference each. -/
theorem nodeCountsFit_emptyTable {m : Mem P} {pool : List ℕ}
    (hm : emptyTable cfg (freshMem pool) = .ok (root, m)) : m.NodeCountsFit := by
  obtain ⟨hf, -, -⟩ := (post_emptyTable (wellFormed_of_no_nodes (fun _ => rfl)) cfg).of_ok hm
  rintro p i q ⟨n, hn, -, he⟩
  rw [hf.nodes] at hn
  rcases update_eq_cases hn with ⟨rfl, heq⟩ | ⟨hp, hn⟩
  · obtain rfl := Option.some.inj heq
    cases he
  · cases hn

/-- Mapping a page refers to no node once more. -/
theorem nodeCountsFit_map {m m' : Mem P} {s s' : CursorMut} {pa : ℕ} {prop : P}
    (hmax : 1 ≤ cfg.maxItemLevel) (hW : WellFormed m) (h : CursorOK m cfg root s.ptCursor)
    (hcounts : m.NodeCountsFit) (hrun : s.map cfg m pa prop = .ok (m', s')) :
    m'.NodeCountsFit := by
  obtain ⟨⟨frag, m₁, c₁⟩, hmap, hrun⟩ := bind_eq_ok.mp hrun
  have hspec : MapSpec m cfg root s.ptCursor ⟨pa, 1, prop⟩ (frag, m₁, c₁) :=
    (post_map OpFaults.isPanic (Or.inl trivial) hW h hmax).of_ok hmap
  obtain ⟨m₂, c₂, q, n, hg, -, -, -, ho, -⟩ := hspec.result
  have hfit : m₁.NodeCountsFit :=
    ho.refCount_lt (hg.wellFormed hW) (hg.refCount_lt hW (by decide) hcounts)
  match frag, hrun with
  | none, hrun =>
      cases hrun
      exact hfit
  | some (.mapped va item), hrun =>
      obtain ⟨f, -, heq⟩ := bind_eq_ok.mp hrun
      cases heq
      exact hfit

/-- The first page is mapped and unmapped again: one page is counted, and a stack with its
address is dispatched. -/
theorem unmap_exact_flushed_sample : ∃ (m m' : Mem Unit) (root : ℕ) (s : CursorMut),
    Reached sampleConfig m root ⟨0, 2 ^ 22⟩ [.map 0x100000 (), .jump 0] m' s ∧
    m'.NodeCountsFit ∧ s.virtAddr = 0 ∧
    ∃ m₂ s₂ stack, s.unmap sampleConfig m' 8192 = .ok (1, m₂, s₂) ∧
      UnmapExact sampleConfig m' root s 8192 1 m₂ s₂ ∧
      OpsStack.new.push (.address 0) = .ok stack ∧ s₂.flusher.dispatched = [stack] := by
  obtain ⟨root, m, m', s, hm, hreach, hs⟩ := exists_sampleSpace [.map 0x100000 (), .jump 0]
    (fun m' s => s.virtAddr = 0 ∧ s.ptCursor.barrierVa.stop = 2 ^ 22 ∧
      (s.unmap sampleConfig m' 8192 >>= fun r => .ok (r.1, r.2.2.flusher.dispatched)) =
        (OpsStack.new.push (.address 0) >>= fun stack => .ok (1, [stack])))
    (by decide +kernel)
  obtain ⟨hva, hstop, hrun⟩ := of_decide_eq_true hs
  obtain ⟨hW, hroot, -⟩ := emptyTable_ok hm
  have hcounts : m'.NodeCountsFit := by
    obtain ⟨c₀, locked, m₀, hnew, hops⟩ := hreach
    obtain ⟨hg, ho⟩ := opened_of_new hW hroot hnew
    obtain ⟨⟨m₁, s₁⟩, hmap, hops⟩ := bind_eq_ok.mp hops
    obtain ⟨⟨m₂, s₂⟩, hjump, hops⟩ := bind_eq_ok.mp hops
    obtain ⟨⟨res, c⟩, -, hjump⟩ := bind_eq_ok.mp hjump
    cases hjump
    cases hops
    exact nodeCountsFit_map le_rfl (hg.wellFormed hW) ho.cursor
      (hg.refCount_lt hW (by decide) (nodeCountsFit_emptyTable hm)) hmap
  obtain ⟨num, m₂, s₂, hunmap, hexact⟩ : ∃ num m₂ s₂, s.unmap sampleConfig m' 8192 =
      .ok (num, m₂, s₂) ∧ UnmapExact sampleConfig m' root s 8192 num m₂ s₂ :=
    (unmap_exact_flushed (by decide) hW hroot hreach hcounts).1 8192 (by decide)
      (by rw [hva, hstop]; decide)
  obtain ⟨stack, hpush⟩ : ∃ stack, OpsStack.new.push (.address 0) = .ok stack := ⟨_, rfl⟩
  rw [hunmap, hpush] at hrun
  obtain ⟨rfl, hdisp⟩ := Prod.mk.inj (Except.ok.inj hrun)
  exact ⟨m, m', root, s, hreach, hcounts, hva, m₂, s₂, stack, hunmap, hexact, hpush, hdisp⟩

end VmSpace.CursorMut

end Vostd
