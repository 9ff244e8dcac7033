/-
# The position after a removal

Where the cursor of an address space stands after `unmap`, and after a `protect_next` that
found nothing.  Both are documented to stop at the end of the range that they were given;
the search below them stops there only if the cursor lands (`Cursor.Lands`).
-/
import Vostd.VmSpace.CursorMut

namespace Vostd

open Exec

variable {P : Type}

/-- A removal up to `stop` ends at `stop`. -/
def Cursor.Ends (c : Cursor) (m : Mem P) (root stop : ℕ) : Prop :=
  c.va = stop ∨ c.Lands m root stop ∨ c.barrierVa.stop = stop

section

variable {m : Mem P} {cfg : PageTableConfig P} {root stop : ℕ} {c : Cursor}

theorem TakeFaults.any {len : ℕ} : TakeFaults (fun _ => True) m cfg c len :=
  ⟨⟨Or.inl trivial, fun _ _ => ⟨⟨trivial, trivial⟩, Or.inl trivial⟩⟩, Or.inl trivial,
    Or.inl trivial⟩

/-- One `take_next` of a removal: it ends the removal, or passes on where it ends. -/
theorem post_takeNext_ends (hmax : cfg.maxItemLevel ≤ 1) (hW : WellFormed m)
    (h : CursorOK m cfg root c) (hle : c.va ≤ stop) :
    Post (fun _ => True) (c.takeNext cfg m (stop - c.va)) (fun r =>
      StepOK m cfg root c r.2.1 r.2.2 ∧
      (r.1 = none → (r.2.2.va = stop ↔ c.Ends m root stop)) ∧
      (r.1 ≠ none → r.2.2.va ≤ stop ∧ (r.2.2.Ends r.2.1 root stop ↔ c.Ends m root stop))) := by
  have hA : TakeFaults (fun _ => True) m cfg c (stop - c.va) := TakeFaults.any
  have hrefines := refines_takeNext hA hW h
  rcases Nat.eq_or_lt_of_le hle with heq | hlt
  · have hzero : stop - c.va = 0 := by omega
    rw [hzero] at hrefines ⊢
    refine (hrefines.and (post_takeNext_zero h)).mono ?_
    rintro ⟨frag, m₁, c₁⟩ ⟨⟨hstep, -⟩, hnone, hva⟩
    refine ⟨hstep, fun _ => ?_, fun hsome => absurd hnone hsome⟩
    exact ⟨fun _ => Or.inl heq, fun _ => hva.trans heq⟩
  · have hstop : c.va + (stop - c.va) = stop := by omega
    have hlands := post_takeNext_lands hmax (show 0 < stop - c.va by omega) hW h
    rw [hstop] at hlands
    have hends : c.Ends m root stop ↔ c.Lands m root stop ∨ c.barrierVa.stop = stop :=
      or_iff_right hlt.ne
    refine (hrefines.and hlands).mono ?_
    rintro ⟨frag, m₁, c₁⟩ ⟨⟨hstep, habs⟩, hl⟩
    refine ⟨hstep, fun hnone => (hl.done hnone).trans hends.symm, fun hsome => ?_⟩
    have hle₁ : c₁.va ≤ stop := by
      simp only at habs
      generalize c₁.va = va₁ at habs ⊢
      generalize translation cfg m₁ root = T₁ at habs
      cases habs with
      | takeNone => exact absurd rfl hsome
      | takeSome _ hle' _ _ => omega
    refine ⟨hle₁, ?_⟩
    rw [hends]
    unfold Cursor.Ends
    have hb : c₁.barrierVa = c.barrierVa := hstep.same.barrierVa
    simp only
    rw [hb]
    rcases Nat.eq_or_lt_of_le hle₁ with heq₁ | hlt₁
    · exact ⟨fun _ => Or.inl (hl.last hsome heq₁), fun _ => Or.inl heq₁⟩
    · rw [or_iff_right hlt₁.ne, hl.taken hsome hlt₁]

end

namespace VmSpace.CursorMut

variable {m m' : Mem P} {cfg : PageTableConfig P} {root endVa : ℕ}

/-- **Where the loop of `unmap` ends.** -/
theorem post_unmapLoop_ends (hmax : cfg.maxItemLevel ≤ 1) (fuel : ℕ) :
    ∀ (num : ℕ) (m : Mem P) (s : CursorMut), WellFormed m → CursorOK m cfg root s.ptCursor →
    s.ptCursor.va ≤ endVa →
    Post (fun _ => True) (unmapLoop cfg endVa fuel num m s) (fun r =>
      r.2.2.ptCursor.va = endVa ↔ s.ptCursor.Ends m root endVa) := by
  induction fuel with
  | zero =>
      intro num m s _ _ _
      trivial
  | succ fuel ih =>
      intro num m s hW h hle
      rw [unmapLoop]
      refine Post.bind (post_sub (fun _ => trivial)) ?_
      rintro _ ⟨rfl, -⟩
      refine Post.bind (post_takeNext_ends hmax hW h hle) ?_
      rintro ⟨frag, m₁, c₁⟩ ⟨hstep, hnone, hsome⟩
      -- the rest of the removal, whatever the flusher did with the fragment
      have hrest : ∀ (num₁ : ℕ) (f : TlbFlusher), frag ≠ none →
          Post (fun _ => True) (unmapLoop cfg endVa fuel num₁ m₁ ⟨c₁, f⟩) (fun r =>
            r.2.2.ptCursor.va = endVa ↔ s.ptCursor.Ends m root endVa) := by
        intro num₁ f hfrag
        obtain ⟨hle₁, hiff⟩ := hsome hfrag
        refine (ih num₁ m₁ ⟨c₁, f⟩ hstep.wellFormed hstep.cursor hle₁).mono ?_
        intro r hr
        exact hr.trans hiff
      rcases frag with _ | (⟨va, item⟩ | ⟨pt, va, size, k⟩)
      · exact hnone rfl
      · exact Post.bind_any fun num₁ => Post.bind_any fun f => hrest num₁ f (by simp)
      · exact Post.bind_any fun num₁ => Post.bind_any fun _ => Post.bind_any fun f =>
          hrest num₁ f (by simp)

/-- **Where `unmap` ends.** -/
theorem post_unmap_ends (hmax : cfg.maxItemLevel ≤ 1) (hW : WellFormed m) {s : CursorMut}
    (h : CursorOK m cfg root s.ptCursor) (len : ℕ) :
    Post (fun _ => True) (s.unmap cfg m len) (fun r =>
      r.2.2.virtAddr = s.virtAddr + len ↔ s.ptCursor.Ends m root (s.virtAddr + len)) := by
  unfold unmap
  refine Post.bind_any fun _ => Post.bind (post_add (fun _ => trivial)) ?_
  rintro _ ⟨rfl, -⟩
  refine Post.bind_any fun _ => ?_
  refine Post.bind (post_unmapLoop_ends hmax _ 0 m s hW h (Nat.le_add_right _ _)) ?_
  rintro ⟨num, m₁, s₁⟩ hiff
  exact hiff

/-! ## The documented position -/

/-- **Where the cursor stands** after `unmap` and after a `protect_next` that found nothing:
at the end of the range that was asked for exactly if every node across this end that the
cursor is not in has entries, or the cursor's own range ends there. -/
theorem virt_addr_after_iff {highest : ℕ} (hh : highest ≤ 4) {r : AddrRange} {ops : List (Op P)}
    {s : CursorMut} (hW : WellFormed m) (hroot : IsRoot m (userPtConfig highest hh) root)
    (h : Reached (userPtConfig highest hh) m root r ops m' s) {len : ℕ} (hlen : 0 < len) :
    (∀ num m₂ s₂, s.unmap (userPtConfig highest hh) m' len = .ok (num, m₂, s₂) →
      (s₂.virtAddr = s.virtAddr + len ↔
        s.ptCursor.Lands m' root (s.virtAddr + len) ∨
          s.ptCursor.barrierVa.stop = s.virtAddr + len)) ∧
    (∀ op m₂ s₂, s.protectNext (userPtConfig highest hh) m' len op = .ok (none, m₂, s₂) →
      (s₂.virtAddr = s.virtAddr + len ↔
        s.ptCursor.Lands m' root (s.virtAddr + len) ∨
          s.ptCursor.barrierVa.stop = s.virtAddr + len)) := by
  obtain ⟨ops', hreach⟩ := h.cursor le_rfl
  have hok := hreach.ok hW hroot
  constructor
  · intro num m₂ s₂ hrun
    have hiff := (post_unmap_ends le_rfl hok.wellFormed hok.cursor len).of_ok hrun
    simp only at hiff
    rw [hiff]
    exact or_iff_right (by unfold virtAddr; omega)
  · intro op m₂ s₂ hrun
    obtain ⟨⟨range, m₃, c₃⟩, hnext, heq⟩ := bind_eq_ok.mp hrun
    cases heq
    exact (post_protectNext_lands le_rfl hlen hok.wellFormed hok.cursor op).of_ok hnext rfl

/-- A page is mapped, and the page behind it is unmapped: the cursor stops at the end of the
range, in the node that it is in. -/
theorem virt_addr_after_iff_sample : ∃ (m m' m₂ : Mem Unit) (root : ℕ) (s s₂ : CursorMut),
    Reached sampleConfig m root ⟨0, 2 ^ 22⟩ [.map 0x100000 ()] m' s ∧ s.virtAddr = 4096 ∧
    s.unmap sampleConfig m' 4096 = .ok (0, m₂, s₂) ∧ s₂.virtAddr = 8192 ∧
    s.ptCursor.Lands m' root 8192 := by
  obtain ⟨root, m, m', s, hm, hreach, hs⟩ := exists_sampleSpace [.map 0x100000 ()]
    (fun m' s => s.virtAddr = 4096 ∧ s.ptCursor.barrierVa.stop = 2 ^ 22 ∧
      (s.unmap sampleConfig m' 4096 >>= fun r => .ok (r.1, r.2.2.virtAddr)) = .ok (0, 8192))
    (by decide +kernel)
  obtain ⟨hva, hstop, hrun⟩ := of_decide_eq_true hs
  obtain ⟨hW, hroot, -⟩ := emptyTable_ok hm
  obtain ⟨⟨num, m₂, s₂⟩, hunmap, heq⟩ := bind_eq_ok.mp hrun
  obtain ⟨rfl, hva₂⟩ := Prod.mk.inj (Except.ok.inj heq)
  have hiff := (virt_addr_after_iff (by decide) hW hroot hreach (show 0 < 4096 by decide)).1
    0 m₂ s₂ hunmap
  rw [hva, hstop] at hiff
  refine ⟨m, m', m₂, root, s, s₂, hreach, hva, hunmap, hva₂, ?_⟩
  exact (hiff.mp hva₂).resolve_right (by decide)

/-- In an empty address space, `unmap` and `protect_next` of one page pass a slot of the second
level. -/
theorem unmap_runs_ahead : ∃ (m m' : Mem Unit) (root : ℕ) (s : CursorMut),
    WellFormed m ∧ IsRoot m sampleConfig root ∧ Reached sampleConfig m root ⟨0, 2 ^ 22⟩ [] m' s ∧
    s.virtAddr + 4096 ≤ s.ptCursor.barrierVa.stop ∧
    (∃ m₂ s₂, s.unmap sampleConfig m' 4096 = .ok (0, m₂, s₂) ∧
      s₂.virtAddr ≠ s.virtAddr + 4096) ∧
    ∃ m₂ s₂, s.protectNext sampleConfig m' 4096 id = .ok (none, m₂, s₂) ∧
      s₂.virtAddr ≠ s.virtAddr + 4096 := by
  obtain ⟨root, m, m', s, hm, hreach, hs⟩ := exists_sampleSpace []
    (fun m' s => s.virtAddr = 0 ∧ s.ptCursor.barrierVa.stop = 2 ^ 22 ∧
      (s.unmap sampleConfig m' 4096 >>= fun r => .ok (r.1, r.2.2.virtAddr)) = .ok (0, 2 ^ 21) ∧
      (s.protectNext sampleConfig m' 4096 id >>= fun r => .ok (r.1, r.2.2.virtAddr)) =
        .ok (none, 2 ^ 21))
    (by decide +kernel)
  obtain ⟨hva, hstop, hunmap, hprotect⟩ := of_decide_eq_true hs
  obtain ⟨hW, hroot, -⟩ := emptyTable_ok hm
  simp only [bind_eq_ok, Except.ok.injEq, Prod.exists, Prod.mk.injEq] at hunmap hprotect
  obtain ⟨_, m₁, s₁, hrun₁, rfl, hva₁⟩ := hunmap
  obtain ⟨_, m₂, s₂, hrun₂, rfl, hva₂⟩ := hprotect
  refine ⟨m, m', root, s, hW, hroot, hreach, by rw [hva, hstop]; decide,
    ⟨m₁, s₁, hrun₁, ?_⟩, m₂, s₂, hrun₂, ?_⟩
  · rw [hva₁, hva]
    decide
  · rw [hva₂, hva]
    decide

end VmSpace.CursorMut

end Vostd
