/-
# What an operation does to the memory

Every cursor operation first lets the table grow, and then overwrites at most one
entry.  `OpEffect` says this once for all operations, with the result that goes
with it, and `effect_perform` is the proof; the invariants of the later files are
all derived from it.
-/
import Vostd.PageTable.Refinement

namespace Vostd

open Exec

variable {P : Type}

/-- The entry `e` that an operation writes over `old`, and the result that it returns
for the fragment `frag` of the old entry. -/
def Op.Writes {cfg : PageTableConfig P} (c₁ : Cursor) (old e : Pte P)
    (frag : Option (PageTableFrag P)) : Op cfg → Res P → Prop
  | .map item, res => c₁.level = item.level ∧ e = .frame item.pa item.prop ∧ res = .map frag
  | .takeNext _, res => e = .absent ∧ old ≠ .absent ∧ res = .takeNext frag
  | .protectNext _ op, res => ∃ pa prop, old = .frame pa prop ∧ e = .frame pa (op prop) ∧
      res = .protectNext (some ⟨c₁.va, c₁.va + pageSize c₁.level⟩)
  | .findNext _, _ => False
  | .query, _ => False
  | .jump _, _ => False

/-- The results of operations that overwrite nothing and take no reference. -/
def Res.IsIdle : Res P → Prop
  | .map _ => False
  | .takeNext frag => frag = none
  | .protectNext range => range = none
  | .findNext _ => True
  | .query res => ∃ e, res = .error e
  | .jump _ => True

/-- **The effect of an operation.** -/
inductive OpEffect (m : Mem P) (cfg : PageTableConfig P) (root : ℕ) :
    Op cfg → Res P → Mem P → Prop
  /-- the table grows, and nothing else happens -/
  | idle {op : Op cfg} {res : Res P} {m' : Mem P} (hg : Grow root m m') (hres : res.IsIdle) :
      OpEffect m cfg root op res m'
  /-- the table grows, and one entry is overwritten -/
  | overwrite {op : Op cfg} {res : Res P} {m₁ m' : Mem P} {c₁ c' : Cursor} {e : Pte P} {q : ℕ}
      {n : Node P} (hg : Grow root m m₁) (ho : Overwrites m₁ m' cfg root c₁ c' e q n)
      (hw : Op.Writes c₁ (n.entries (pteIndex c₁.va c₁.level)) e
        (fragOf (m₁.put q n (pteIndex c₁.va c₁.level) e) c₁ (n.entries (pteIndex c₁.va c₁.level)))
        op res) :
      OpEffect m cfg root op res m'
  /-- an item is cloned -/
  | clone {m' : Mem P} {va l : ℕ} {r : AddrRange} {item : Option (Item P)}
      (hnodes : m'.nodes = m.nodes) (hrc : m'.refCount = cloneRefCount cfg m.refCount item)
      (hshow : ItemShown m cfg root l va item) :
      OpEffect m cfg root .query (.query (.ok (r, item))) m'

section

variable {m m' : Mem P} {cfg : PageTableConfig P} {root : ℕ} {c : Cursor}

/-- **Every operation has one of these effects.** -/
theorem effect_perform (hW : WellFormed m) (h : CursorOK m cfg root c) (op : Op cfg) :
    Post Fault.IsPanic (c.perform cfg m op) (fun r => OpEffect m cfg root op r.1 r.2.1) := by
  cases op with
  | map item =>
      refine Post.bind (post_map OpFaults.isPanic (Or.inl trivial) hW h item.level_le) ?_
      rintro ⟨frag, m', c'⟩ hr
      obtain ⟨m₁, c₁, q, n, hg, -, -, hl, ho, hfrag⟩ := hr.result
      exact OpEffect.overwrite hg ho ⟨hl, rfl, congrArg Res.map hfrag⟩
  | takeNext len =>
      refine Post.bind (post_takeNext TakeFaults.isPanic hW h) ?_
      rintro ⟨frag, m', c'⟩ hr
      obtain ⟨v, m₁, c₁, hf, ⟨-, heq⟩ | ⟨q, n, -, -, ho, hne, hfrag⟩⟩ := hr.result
      · cases heq
        exact OpEffect.idle hf.grow rfl
      · exact OpEffect.overwrite hf.grow ho ⟨rfl, hne, congrArg Res.takeNext hfrag⟩
  | protectNext len op =>
      refine Post.bind (post_protectNext SearchFaults.isPanic trivial hW h len op) ?_
      rintro ⟨range, m', c'⟩ hr
      obtain ⟨v, m₁, c₁, hf, ⟨-, heq⟩ | ⟨q, n, pa, prop, -, -, he, ho, hrange⟩⟩ := hr.result
      · cases heq
        exact OpEffect.idle hf.grow rfl
      · exact OpEffect.overwrite hf.grow ho ⟨pa, prop, he, rfl, congrArg Res.protectNext hrange⟩
  | findNext len =>
      refine Post.bind (post_findNextImpl SearchFaults.isPanic (Or.inl trivial) hW h) ?_
      intro r hr
      exact OpEffect.idle hr.2.2.grow trivial
  | query =>
      refine Post.bind (post_query (Or.inl trivial) (Or.inl trivial) hW h) ?_
      rintro ⟨res, m', c'⟩ ⟨-, -, -, -, hnodes, hres⟩
      cases res with
      | error err =>
          obtain ⟨-, -, rfl⟩ := hres
          exact OpEffect.idle (Grow.refl root _) ⟨err, rfl⟩
      | ok res =>
          obtain ⟨-, hrc, l, -, -, -, hshow⟩ := hres
          exact OpEffect.clone hnodes hrc hshow
  | jump va =>
      refine Post.bind (post_jump h (Or.inl trivial)) ?_
      intro r _
      exact OpEffect.idle (Grow.refl root m) trivial

/-! ## Leaves over operations -/

variable {Φ : ℕ → ℕ → Prop}

theorem Overwrites.allLeaves {c' : Cursor} {e : Pte P} {q : ℕ} {n : Node P}
    (ho : Overwrites m m' cfg root c c' e q n) (h : m.AllLeaves Φ)
    (he : ∀ pa prop, e = .frame pa prop → Φ c.level pa) : m'.AllLeaves Φ := by
  intro cfg p i l pa prop hleaf
  rw [ho.replaced.marked.leafAt_iff, leafAt_put ho.slot.position.node ho.slot.slot] at hleaf
  split at hleaf
  · rw [← hleaf.2.1, ho.slot.level]
    exact he pa prop hleaf.2.2
  · exact h _ _ _ _ _ _ hleaf

/-- **What all mapped items have, all leaves have**, at all times. -/
theorem OpEffect.allLeaves {op : Op cfg} {res : Res P} (heff : OpEffect m cfg root op res m')
    (hW : WellFormed m) (hΦ : PassesToParts Φ) (h : m.AllLeaves Φ)
    (hop : ∀ item, op = .map item → Φ item.level item.pa) : m'.AllLeaves Φ := by
  cases heff with
  | idle hg _ => exact hg.allLeaves hW hΦ h
  | clone hnodes _ _ =>
      intro cfg p i l pa prop hleaf
      exact h _ _ _ _ _ _ ((leafAt_congr hnodes).mp hleaf)
  | @overwrite _ _ m₁ _ c₁ _ e q n hg ho hw =>
      have h₁ := hg.allLeaves hW hΦ h
      refine ho.allLeaves h₁ ?_
      rintro pa prop rfl
      cases op with
      | map item =>
          obtain ⟨hl, he, -⟩ := hw
          injection he with hpa hprop
          rw [hl, hpa]
          exact hop item rfl
      | takeNext len => cases hw.1
      | protectNext len f =>
          obtain ⟨pa', prop', hold, he, -⟩ := hw
          injection he with hpa hprop
          rw [hpa]
          exact h₁ _ _ _ _ _ _ ⟨n, ho.slot.position.node, rfl, ho.slot.level, ho.slot.slot, hold⟩
      | findNext len => exact hw.elim
      | query => exact hw.elim
      | jump va => exact hw.elim

/-- Operations that map aligned items keep all leaves aligned. -/
theorem aligned_perform (hW : WellFormed m) (h : CursorOK m cfg root c) (ha : m.Aligned)
    (op : Op cfg) (hop : ∀ item, op = .map item → pageSize item.level ∣ item.pa) :
    Post Fault.IsPanic (c.perform cfg m op) (fun r => r.2.1.Aligned) := by
  refine (effect_perform hW h op).mono ?_
  rintro ⟨res, m', c'⟩ heff
  exact heff.allLeaves hW passesToParts_dvd ha hop

end

end Vostd
