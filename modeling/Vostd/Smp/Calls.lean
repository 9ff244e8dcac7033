/-
# Inter-processor calls

`smp.rs` lets a CPU have functions executed by other CPUs.  Every CPU has a queue of functions
behind a spin lock.  `inter_processor_call` first puts the function in the queue of every target,
then sends every target an interrupt, and at last calls the function itself if the caller is a
target, too.  The interrupt handler takes the lock of its own queue and calls the functions until
none is left.

The hardware ids that interrupts are sent to come from `boot/smp.rs`: each CPU reports its own
when it is online.

The CPUs take turns in any order, one step at a time (`next`).  A CPU has a stack of what it is
doing: interrupts are off while it is in a call or in the handler, but a function that is called
may make calls of its own.  An interrupt that is sent again before it is taken is taken once.
-/
import Vostd.Lib.System
import Vostd.Lib.SortedMap
import Vostd.Cpu.CpuSet

namespace Vostd.Smp

open Exec

/-! ## Hardware ids -/

/-- `report_online_and_hw_cpu_id`, with the map that it changes. -/
def reportOnlineAndHwCpuId (map : SortedMap ℕ ℕ) (cpuId hwCpuId : ℕ) : Exec (SortedMap ℕ ℕ) := do
  let oldVal := map.get? cpuId
  let map := map.insert cpuId hwCpuId
  check (oldVal = none)
  .ok map

/-- `construct_hw_cpu_id_mapping`, and the map after it. -/
def constructHwCpuIdMapping (numCpus : ℕ) (map : SortedMap ℕ ℕ) :
    Exec (List ℕ × SortedMap ℕ ℕ) := do
  check (map.entries.length = numCpus)
  .ok (map.entries.map Prod.snd, ⟨[], List.Pairwise.nil⟩)

/-- The CPUs, the order in which they come up, and for each function the calls that it makes. -/
structure Setting (n : ℕ) (F : Type) where
  hwId : Fin n → ℕ
  order : List (Fin n)
  perm : order.Perm (List.finRange n)
  lt : n < 2 ^ 32
  body : F → List (CpuSet × F)
  valid : ∀ f, ∀ call ∈ body f, ∃ S, SetOK n call.1.bits S

variable {n : ℕ} {F : Type}

/-- The mapping after all CPUs are up. -/
def Setting.hwCpuIds (cfg : Setting n F) : Exec (List ℕ) := do
  let map ← cfg.order.foldlM (fun map (c : Fin n) => reportOnlineAndHwCpuId map c.val (cfg.hwId c))
    ⟨[], List.Pairwise.nil⟩
  let r ← constructHwCpuIdMapping n map
  .ok r.1

/-! ## Calls -/

/-- What a CPU is doing. -/
inductive Frame (n : ℕ) (F : Type) : Type where
  /-- The first loop of `inter_processor_call`. -/
  | push (f : F) (targets todo : List (Fin n)) (callOnSelf : Bool)
  /-- In it, with the lock of the queue of `cpu`. -/
  | pushing (f : F) (targets : List (Fin n)) (cpu : Fin n) (todo : List (Fin n)) (callOnSelf : Bool)
  /-- The second loop. -/
  | send (f : F) (todo : List (Fin n)) (callOnSelf : Bool)
  /-- In a function that still makes these calls. -/
  | run (calls : List (CpuSet × F))
  /-- `do_inter_processor_call`, before it has the lock. -/
  | wait
  /-- Its loop, with the lock. -/
  | handle

/-- The state of all CPUs.  `handled` and `own` are the functions that a CPU has called, in the
handler and for itself, and `asked` is what was asked for. -/
structure World (n : ℕ) (F : Type) where
  stack : Fin n → List (Frame n F)
  queue : Fin n → List F
  locked : Fin n → Bool
  pending : Fin n → Bool
  handled : Fin n → List F
  own : Fin n → List F
  asked : Multiset (Fin n × F)

/-- The ids that the iterator of a set yields; there are no variables of other CPUs. -/
def targetsOf (n : ℕ) (targets : CpuSet) : Exec (List (Fin n)) := do
  let ids ← targets.iter
  ids.mapM fun id => if h : id < n then .ok ⟨id, h⟩ else .error .badAccess

namespace World

def setStack (w : World n F) (c : Fin n) (stack : List (Frame n F)) : World n F :=
  { w with stack := Function.update w.stack c stack }

def setLocked (w : World n F) (d : Fin n) (b : Bool) : World n F :=
  { w with locked := Function.update w.locked d b }

def setQueue (w : World n F) (d : Fin n) (queue : List F) : World n F :=
  { w with queue := Function.update w.queue d queue }

/-- `send_ipi`: the CPU with the hardware id has the interrupt. -/
def sendIpi (cfg : Setting n F) (w : World n F) (hw : ℕ) : World n F :=
  { w with pending := fun d => w.pending d || decide (cfg.hwId d = hw) }

/-- `inter_processor_call` up to its first loop. -/
def begin (w : World n F) (c : Fin n) (targets : CpuSet) (f : F) (rest : List (Frame n F)) :
    Option (World n F) :=
  match targetsOf n targets with
  | .ok ids => some
      ({ w with asked := w.asked + (ids.map fun d => (d, f) : List (Fin n × F)) }.setStack c
        (.push f ids ids false :: rest))
  | .error _ => none

/-- A turn of the first loop up to the lock, which the CPU waits for. -/
def pushStep (w : World n F) (c : Fin n) (f : F) (targets todo : List (Fin n)) (callOnSelf : Bool)
    (rest : List (Frame n F)) : Option (World n F) :=
  match todo with
  | [] => some (w.setStack c (.send f targets callOnSelf :: rest))
  | d :: todo =>
      if d = c then some (w.setStack c (.push f targets todo true :: rest))
      else if w.locked d then none
      else some ((w.setLocked d true).setStack c (.pushing f targets d todo callOnSelf :: rest))

/-- The rest of the turn. -/
def pushBack (w : World n F) (c : Fin n) (f : F) (targets : List (Fin n)) (d : Fin n)
    (todo : List (Fin n)) (callOnSelf : Bool) (rest : List (Frame n F)) : World n F :=
  ((w.setQueue d (w.queue d ++ [f])).setLocked d false).setStack c
    (.push f targets todo callOnSelf :: rest)

/-- A turn of the second loop, or what is behind it. -/
def sendStep (cfg : Setting n F) (w : World n F) (c : Fin n) (f : F) (todo : List (Fin n))
    (callOnSelf : Bool) (rest : List (Frame n F)) : Option (World n F) :=
  match todo with
  | [] =>
      if callOnSelf then
        some ({ w with own := Function.update w.own c (w.own c ++ [f]) }.setStack c
          (.run (cfg.body f) :: rest))
      else some (w.setStack c rest)
  | d :: todo =>
      if d = c then some (w.setStack c (.send f todo callOnSelf :: rest))
      else do
        let ids ← cfg.hwCpuIds.toOption
        let hw ← ids[d.val]?
        some ((w.sendIpi cfg hw).setStack c (.send f todo callOnSelf :: rest))

/-- A function goes on. -/
def runStep (w : World n F) (c : Fin n) (calls : List (CpuSet × F)) (rest : List (Frame n F)) :
    Option (World n F) :=
  match calls with
  | [] => some (w.setStack c rest)
  | call :: calls => w.begin c call.1 call.2 (.run calls :: rest)

/-- The handler takes the lock. -/
def waitStep (w : World n F) (c : Fin n) (rest : List (Frame n F)) : Option (World n F) :=
  if w.locked c then none else some ((w.setLocked c true).setStack c (.handle :: rest))

/-- A turn of the handler's loop. -/
def handleStep (cfg : Setting n F) (w : World n F) (c : Fin n) (rest : List (Frame n F)) :
    World n F :=
  match w.queue c with
  | [] => (w.setLocked c false).setStack c rest
  | f :: queue =>
      ({ w with handled := Function.update w.handled c (w.handled c ++ [f]) }.setQueue c
        queue).setStack c (.run (cfg.body f) :: .handle :: rest)

/-- A step of a CPU, if it can take one. -/
def advance (cfg : Setting n F) (w : World n F) (c : Fin n) : Option (World n F) :=
  match w.stack c with
  | [] => none
  | .push f targets todo callOnSelf :: rest => w.pushStep c f targets todo callOnSelf rest
  | .pushing f targets d todo callOnSelf :: rest =>
      some (w.pushBack c f targets d todo callOnSelf rest)
  | .send f todo callOnSelf :: rest => sendStep cfg w c f todo callOnSelf rest
  | .run calls :: rest => w.runStep c calls rest
  | .wait :: rest => w.waitStep c rest
  | .handle :: rest => some (handleStep cfg w c rest)

/-- A CPU that is in no call begins one. -/
def callStep (w : World n F) (c : Fin n) (targets : CpuSet) (f : F) : Option (World n F) :=
  match w.stack c with
  | [] => w.begin c targets f []
  | _ :: _ => none

/-- A CPU that is in no call takes the interrupt. -/
def irqStep (w : World n F) (c : Fin n) : Option (World n F) :=
  match w.stack c, w.pending c with
  | [], true => some ({ w with pending := Function.update w.pending c false }.setStack c [.wait])
  | _, _ => none

end World

/-- What can happen next. -/
inductive Act (n : ℕ) (F : Type) : Type where
  | call (c : Fin n) (targets : CpuSet) (f : F)
  | irq (c : Fin n)
  | step (c : Fin n)

/-- The next world. -/
def next (cfg : Setting n F) (w : World n F) : Act n F → Option (World n F)
  | .call c targets f => w.callStep c targets f
  | .irq c => w.irqStep c
  | .step c => World.advance cfg w c

/-- A call is with a set of CPUs; the rest is up to the code. -/
def Possible (n : ℕ) : Act n F → Prop
  | .call _ targets _ => ∃ S, SetOK n targets.bits S
  | .irq _ => True
  | .step _ => True

/-- The CPUs after boot. -/
def World.start : World n F where
  stack := fun _ => []
  queue := fun _ => []
  locked := fun _ => false
  pending := fun _ => false
  handled := fun _ => []
  own := fun _ => []
  asked := 0

def system (cfg : Setting n F) : System (World n F) (Act n F) where
  init := fun w => w = .start
  step := fun w a w' => Possible n a ∧ next cfg w a = some w'

/-! ## The ids that are found -/

/-- Every CPU reports once, so that no report panics. -/
theorem exists_foldlM_report (cfg : Setting n F) : ∀ (l : List (Fin n)) (map : SortedMap ℕ ℕ),
    l.Nodup → (∀ c ∈ l, ∀ e ∈ map.entries, e.1 ≠ c.val) →
    ∃ map', l.foldlM (fun map (c : Fin n) => reportOnlineAndHwCpuId map c.val (cfg.hwId c)) map =
        .ok map' ∧
      ∀ e, e ∈ map'.entries ↔ e ∈ map.entries ∨ ∃ c ∈ l, e = (c.val, cfg.hwId c) := by
  intro l
  induction l with
  | nil => exact fun map _ _ => ⟨map, rfl, fun e => by simp⟩
  | cons c l ih =>
    intro map hnodup hnew
    rw [List.nodup_cons] at hnodup
    have hnone : map.get? c.val = none := by
      by_contra hsome
      obtain ⟨v, hv⟩ := Option.ne_none_iff_exists'.mp hsome
      exact hnew c List.mem_cons_self _ (SortedMap.get?_eq_some.mp hv) rfl
    have hreport : reportOnlineAndHwCpuId map c.val (cfg.hwId c) =
        .ok (map.insert c.val (cfg.hwId c)) := by
      change (check (map.get? c.val = none) >>= fun _ => Except.ok _) = _
      rw [check_pos hnone]
      rfl
    obtain ⟨map', hmap', hmem⟩ := ih (map.insert c.val (cfg.hwId c)) hnodup.2 (by
      intro d hd e he
      rcases SortedMap.mem_insert.mp he with rfl | ⟨he, -⟩
      · rintro heq
        exact hnodup.1 (Fin.val_injective heq ▸ hd)
      · exact hnew d (List.mem_cons_of_mem _ hd) e he)
    refine ⟨map', by rw [List.foldlM_cons, hreport]; exact hmap', fun e => ?_⟩
    rw [hmem, SortedMap.mem_insert]
    constructor
    · rintro ((rfl | ⟨he, -⟩) | ⟨d, hd, rfl⟩)
      · exact Or.inr ⟨c, List.mem_cons_self, rfl⟩
      · exact Or.inl he
      · exact Or.inr ⟨d, List.mem_cons_of_mem _ hd, rfl⟩
    · rintro (he | ⟨d, hd, rfl⟩)
      · exact Or.inl (Or.inr ⟨he, hnew c List.mem_cons_self e he⟩)
      · rcases List.mem_cons.mp hd with rfl | hd
        · exact Or.inl (Or.inl rfl)
        · exact Or.inr ⟨d, hd, rfl⟩

/-- **Whatever the order in which the CPUs come up**, the mapping has the hardware id of each. -/
theorem Setting.hwCpuIds_eq (cfg : Setting n F) : cfg.hwCpuIds = .ok (List.ofFn cfg.hwId) := by
  obtain ⟨map, hmap, hmem⟩ := exists_foldlM_report cfg cfg.order ⟨[], List.Pairwise.nil⟩
    (cfg.perm.nodup_iff.mpr (List.nodup_finRange n)) (fun _ _ e he => nomatch he)
  have hentries : map.entries = (List.finRange n).map fun c => (c.val, cfg.hwId c) := by
    refine SortedMap.entries_eq (List.pairwise_map.mpr ?_) fun e => ?_
    · exact (List.sortedLT_finRange n).pairwise
    · rw [hmem, List.mem_map]
      constructor
      · rintro (he | ⟨c, -, rfl⟩)
        · cases he
        · exact ⟨c, List.mem_finRange c, rfl⟩
      · rintro ⟨c, hc, rfl⟩
        exact Or.inr ⟨c, cfg.perm.mem_iff.mpr hc, rfl⟩
  unfold hwCpuIds constructHwCpuIdMapping
  rw [hmap, ok_bind, check_pos (by rw [hentries, List.length_map, List.length_finRange]), hentries,
    List.map_map, List.ofFn_eq_map]
  rfl

/-- An interrupt goes to the CPU that is meant. -/
theorem Setting.getElem?_hwIds (cfg : Setting n F) (d : Fin n) :
    (List.ofFn cfg.hwId)[d.val]? = some (cfg.hwId d) := by
  rw [List.getElem?_ofFn, dif_pos d.isLt]

theorem targetsOf_eq {targets : CpuSet} {S : Finset ℕ} (h : SetOK n targets.bits S)
    (hn : n < 2 ^ 32) :
    ∃ ids : List (Fin n), targetsOf n targets = .ok ids ∧ ids.Nodup ∧ ∀ d, d ∈ ids ↔ d.val ∈ S := by
  have hmap : ∀ l : List ℕ, (∀ id ∈ l, id < n) →
      ∃ ids : List (Fin n), (l.mapM fun id => if h : id < n then Except.ok (⟨id, h⟩ : Fin n)
        else .error Fault.badAccess) = .ok ids ∧ ids.map Fin.val = l := by
    intro l hl
    induction l with
    | nil => exact ⟨[], rfl, rfl⟩
    | cons id l ih =>
      obtain ⟨ids, hids, hval⟩ := ih fun id hid => hl id (List.mem_cons_of_mem _ hid)
      refine ⟨⟨id, hl id List.mem_cons_self⟩ :: ids, ?_, by rw [List.map_cons, hval]⟩
      rw [List.mapM_cons, dif_pos (hl id List.mem_cons_self), hids]
      rfl
  have hmem : ∀ id, id ∈ S.sort (· ≤ ·) ↔ id ∈ S := fun id => Finset.mem_sort (· ≤ ·)
  obtain ⟨ids, hids, hval⟩ := hmap (S.sort (· ≤ ·)) fun id hid => h.lt id ((hmem id).mp hid)
  refine ⟨ids, ?_, ?_, fun d => ?_⟩
  · unfold targetsOf
    rw [h.iter hn]
    exact hids
  · exact List.Nodup.of_map Fin.val (hval ▸ S.sort_nodup (· ≤ ·))
  · rw [← hmem, ← hval]
    exact (List.mem_map_of_injective Fin.val_injective).symm

end Vostd.Smp
