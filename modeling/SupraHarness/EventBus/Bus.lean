import SupraHarness.Lib.Gaps
import SupraHarness.Lib.Run

/-!
# The event bus

Filtered fan-out where publishing cannot block. Every subscription has a slot with a bounded
ring; a full ring loses its oldest delivery, and a slot whose queue lock is held by its consumer
loses the event that is being offered. `Slot.offer` is what one publish does to one slot. A publish
holds the registry lock from the assignment of its number until it has visited every slot, and
consumers take their steps in between; `step` is one such step of the whole bus.
-/
namespace SupraHarness.EventBus

inductive Topic where
  | session | turn | prompt | cache | provider | cohort | tool | gate | guard | journal | digest
  deriving DecidableEq, Repr

/-- A set of topics, one bit each. -/
structure TopicSet where
  bits : BitVec 16
  deriving DecidableEq, Repr

namespace TopicSet

def none : TopicSet := ⟨0⟩

def index : Topic → Nat
  | .session => 0
  | .turn => 1
  | .prompt => 2
  | .cache => 3
  | .provider => 4
  | .cohort => 5
  | .tool => 6
  | .gate => 7
  | .guard => 8
  | .journal => 9
  | .digest => 10

/-- The set of exactly one topic. -/
def of (topic : Topic) : TopicSet := ⟨1#16 <<< index topic⟩

def union (a b : TopicSet) : TopicSet := ⟨a.bits ||| b.bits⟩

def contains (s : TopicSet) (topic : Topic) : Bool := s.bits &&& (of topic).bits != 0

end TopicSet

variable {ε : Type}

/-- One event as a subscriber receives it. -/
structure Delivery (ε : Type) where
  seq : Nat
  event : ε
  missedBefore : Nat
  deriving DecidableEq, Repr

inductive RecvError where
  | empty | timeout | closed
  deriving DecidableEq, Repr

structure Queue (ε : Type) where
  ring : List (Delivery ε)
  capacity : Nat
  closed : Bool
  deriving DecidableEq, Repr

/-- State shared between the bus and one subscription. -/
structure Slot (ε : Type) where
  topics : TopicSet
  queue : Queue ε
  pendingMissed : Nat
  missedTotal : Nat
  deriving DecidableEq, Repr

def Slot.new (topics : TopicSet) (capacity : Nat) : Slot ε := ⟨topics, ⟨[], capacity, false⟩, 0, 0⟩

/-- The loop that makes room: what is left of the ring, the gap of the deliveries it dropped, and
how many those were. -/
def makeRoom (capacity : Nat) : List (Delivery ε) → List (Delivery ε) × Nat × Nat
  | [] => ([], 0, 0)
  | dropped :: ring =>
    if capacity ≤ (dropped :: ring).length then
      let r := makeRoom capacity ring
      (r.1, dropped.missedBefore + 1 + r.2.1, r.2.2 + 1)
    else (dropped :: ring, 0, 0)

/-- A gap goes to the front of the ring, or to the next delivery when nothing is left. -/
def chargeGap (loss pendingMissed : Nat) : List (Delivery ε) → List (Delivery ε) × Nat
  | front :: ring => ({ front with missedBefore := front.missedBefore + loss } :: ring, pendingMissed)
  | [] => ([], pendingMissed + loss)

/-- An event that is counted and not kept. -/
def Slot.noteLoss (slot : Slot ε) : Slot ε :=
  { slot with pendingMissed := slot.pendingMissed + 1, missedTotal := slot.missedTotal + 1 }

/-- Offer an event. `contended` says that `try_lock` finds the queue locked. -/
def Slot.offer (contended : Bool) (seq : Nat) (event : ε) (slot : Slot ε) : Slot ε :=
  if contended then slot.noteLoss
  else if slot.queue.capacity = 0 then slot.noteLoss
  else
    let room := makeRoom slot.queue.capacity slot.queue.ring
    let loss := room.2.1
    let charged := if 0 < loss then chargeGap loss slot.pendingMissed room.1 else (room.1, slot.pendingMissed)
    { slot with
      queue := { slot.queue with ring := charged.1 ++ [⟨seq, event, charged.2⟩] }
      pendingMissed := 0
      missedTotal := slot.missedTotal + room.2.2 }

def Slot.close (slot : Slot ε) : Slot ε := { slot with queue := { slot.queue with closed := true } }

/-- Take the oldest delivery without waiting. -/
def Slot.tryRecv (slot : Slot ε) : Slot ε × Except RecvError (Delivery ε) :=
  match slot.queue.ring with
  | delivery :: ring => ({ slot with queue := { slot.queue with ring := ring } }, .ok delivery)
  | [] => (slot, .error (if slot.queue.closed then .closed else .empty))

/-- Take everything buffered, oldest first. -/
def Slot.drain (slot : Slot ε) : Slot ε × List (Delivery ε) :=
  ({ slot with queue := { slot.queue with ring := [] } }, slot.queue.ring)

/-! ## The account of one slot -/

open Gaps

def Delivery.gapped (d : Delivery ε) : Gapped (Nat × ε) := ⟨d.missedBefore, (d.seq, d.event)⟩

/-- The slot of a subscription that has received `received`, after the events `log`. -/
structure Slot.Accounts (slot : Slot ε) (received : List (Delivery ε)) (log : List (Nat × ε)) :
    Prop where
  covers : Covers log ((received ++ slot.queue.ring).map Delivery.gapped) slot.pendingMissed
  total : received.length + slot.queue.ring.length + slot.missedTotal = log.length

theorem new_accounts (topics : TopicSet) (capacity : Nat) :
    (Slot.new topics capacity : Slot ε).Accounts [] [] := ⟨covers_nil, rfl⟩

theorem chargeGap_zero (pending : Nat) (ring : List (Delivery ε)) :
    chargeGap 0 pending ring = (ring, pending) := by
  cases ring <;> rfl

theorem chargeGap_length (loss pending : Nat) (ring : List (Delivery ε)) :
    (chargeGap loss pending ring).1.length = ring.length := by
  cases ring <;> rfl

theorem makeRoom_length (capacity : Nat) (ring : List (Delivery ε)) :
    (makeRoom capacity ring).1.length + (makeRoom capacity ring).2.2 = ring.length := by
  induction ring with
  | nil => rfl
  | cons dropped ring ih =>
    unfold makeRoom
    split_ifs
    · simp only [List.length_cons]
      omega
    · rfl

/-- A delivery that is dropped leaves its gap, and itself, to the next one. -/
theorem covers_chargeGap {log : List (Nat × ε)} {before : List (Gapped (Nat × ε))}
    {d : Delivery ε} {ring : List (Delivery ε)} {pending carried : Nat}
    (h : Covers log (before ++ (chargeGap carried pending (d :: ring)).1.map Delivery.gapped) pending) :
    Covers log
      (before ++ (chargeGap (carried + (d.missedBefore + 1)) pending ring).1.map Delivery.gapped)
      (chargeGap (carried + (d.missedBefore + 1)) pending ring).2 := by
  cases ring with
  | nil =>
    have hd := h.drop_last
    simp only [Delivery.gapped] at hd
    simpa [chargeGap, Nat.add_comm, Nat.add_left_comm, Nat.add_assoc] using hd
  | cons next ring =>
    have hd := h.drop
    simp only [Delivery.gapped] at hd
    simpa [chargeGap, Delivery.gapped, Nat.add_comm, Nat.add_left_comm, Nat.add_assoc] using hd

theorem covers_makeRoom (capacity : Nat) {log : List (Nat × ε)} (before : List (Gapped (Nat × ε)))
    (ring : List (Delivery ε)) (pending carried : Nat)
    (h : Covers log (before ++ (chargeGap carried pending ring).1.map Delivery.gapped)
      (chargeGap carried pending ring).2) :
    Covers log
      (before ++ (chargeGap (carried + (makeRoom capacity ring).2.1) pending
        (makeRoom capacity ring).1).1.map Delivery.gapped)
      (chargeGap (carried + (makeRoom capacity ring).2.1) pending (makeRoom capacity ring).1).2 := by
  induction ring generalizing carried with
  | nil => exact h
  | cons dropped ring ih =>
    unfold makeRoom
    split_ifs
    · have hd := ih _ (covers_chargeGap h)
      rwa [Nat.add_assoc] at hd
    · exact h

theorem noteLoss_accounts {slot : Slot ε} {received : List (Delivery ε)} {log : List (Nat × ε)}
    (h : slot.Accounts received log) (entry : Nat × ε) :
    slot.noteLoss.Accounts received (log ++ [entry]) := by
  refine ⟨h.covers.lose entry, ?_⟩
  have := h.total
  simp only [Slot.noteLoss, List.length_append, List.length_singleton]
  omega

/-- One more matching event, kept or lost, is accounted for. -/
theorem offer_accounts {slot : Slot ε} {received : List (Delivery ε)} {log : List (Nat × ε)}
    (h : slot.Accounts received log) (contended : Bool) (seq : Nat) (event : ε) :
    (slot.offer contended seq event).Accounts received (log ++ [(seq, event)]) := by
  unfold Slot.offer
  split_ifs with hc hz
  · exact noteLoss_accounts h _
  · exact noteLoss_accounts h _
  · have hcharge : (if 0 < (makeRoom slot.queue.capacity slot.queue.ring).2.1 then
        chargeGap (makeRoom slot.queue.capacity slot.queue.ring).2.1 slot.pendingMissed
          (makeRoom slot.queue.capacity slot.queue.ring).1
        else ((makeRoom slot.queue.capacity slot.queue.ring).1, slot.pendingMissed)) =
        chargeGap (makeRoom slot.queue.capacity slot.queue.ring).2.1 slot.pendingMissed
          (makeRoom slot.queue.capacity slot.queue.ring).1 := by
      split_ifs with hpos
      · rfl
      · rw [Nat.eq_zero_of_not_pos hpos, chargeGap_zero]
    have hroom := makeRoom_length slot.queue.capacity slot.queue.ring
    have hcovers := covers_makeRoom slot.queue.capacity (received.map Delivery.gapped)
      slot.queue.ring slot.pendingMissed 0 (by
        rw [chargeGap_zero, ← List.map_append]
        exact h.covers)
    rw [Nat.zero_add] at hcovers
    have htotal := h.total
    simp only [hcharge]
    refine ⟨?_, ?_⟩
    · have hp := hcovers.push (seq, event)
      simpa [Delivery.gapped] using hp
    · simp only [List.length_append, List.length_singleton, chargeGap_length]
      omega

/-- A received delivery moves from the ring to the reader, and the account stays. -/
theorem tryRecv_accounts {slot : Slot ε} {received : List (Delivery ε)} {log : List (Nat × ε)}
    (h : slot.Accounts received log) :
    slot.tryRecv.1.Accounts (received ++ slot.tryRecv.2.toOption.toList) log := by
  have ⟨hc, ht⟩ := h
  unfold Slot.tryRecv
  cases hr : slot.queue.ring with
  | nil => simpa [Except.toOption, hr] using h
  | cons delivery ring =>
    rw [hr] at hc ht
    refine ⟨by simpa [Except.toOption] using hc, ?_⟩
    simp only [Except.toOption, Option.toList_some, List.length_append, List.length_cons,
      List.length_nil] at ht ⊢
    omega

theorem drain_accounts {slot : Slot ε} {received : List (Delivery ε)} {log : List (Nat × ε)}
    (h : slot.Accounts received log) :
    slot.drain.1.Accounts (received ++ slot.drain.2) log := by
  have ⟨hc, ht⟩ := h
  refine ⟨by simpa [Slot.drain] using hc, ?_⟩
  simp only [Slot.drain, List.length_append, List.length_nil]
  omega

/-! ## The whole bus -/

/-- A subscription: its slot, whether its handle is still held, the number of the next event when
it was made, and what it has received since. -/
structure Subscription (ε : Type) where
  slot : Slot ε
  live : Bool
  since : Nat
  received : List (Delivery ε)
  deriving DecidableEq, Repr

/-- A publish under way: the entries of the registry it has still to visit, and those it keeps. -/
structure InFlight (ε : Type) where
  seq : Nat
  event : ε
  toVisit : List Nat
  kept : List Nat
  deriving DecidableEq, Repr

/-- The bus and its subscriptions, numbered in the order they were made; `log` is every event
published so far. -/
structure System (ε : Type) where
  subscriptions : List (Subscription ε)
  registry : List Nat
  nextSeq : Nat
  inFlight : Option (InFlight ε)
  alive : Bool
  log : List (Nat × ε)
  deriving DecidableEq, Repr

def System.new : System ε := ⟨[], [], 0, none, true, []⟩

/-- Whether a weak entry of the registry can still be upgraded. -/
def System.isLive (s : System ε) (i : Nat) : Bool := s.subscriptions[i]?.any Subscription.live

def System.modify (s : System ε) (i : Nat) (f : Subscription ε → Subscription ε) : System ε :=
  { s with subscriptions := s.subscriptions.modify i f }

inductive Action (ε : Type) where
  | subscribe (topics : TopicSet) (capacity : Nat)
  | publish (event : ε)
  | visit (contended : Bool)
  | finish
  | tryRecv (i : Nat)
  | drain (i : Nat)
  | dropHandle (i : Nat)
  | subscriberCount
  | dropBus
  | close (i : Nat)
  deriving DecidableEq, Repr

section Steps

variable (topic : ε → Topic)

/-- The visit of one slot by a publish. -/
def Subscription.visit (f : InFlight ε) (contended : Bool) (sub : Subscription ε) : Subscription ε :=
  if sub.slot.topics.contains (topic f.event) then
    { sub with slot := sub.slot.offer contended f.seq f.event }
  else sub

def Subscription.recv (sub : Subscription ε) : Subscription ε :=
  let r := sub.slot.tryRecv
  { sub with slot := r.1, received := sub.received ++ r.2.toOption.toList }

def Subscription.drain (sub : Subscription ε) : Subscription ε :=
  let r := sub.slot.drain
  { sub with slot := r.1, received := sub.received ++ r.2 }

/-- One step. The registry lock is held while a publish is in flight, so nothing else that needs
it can start; `recv_timeout` that wakes up takes the step of `tryRecv`. -/
def step (s : System ε) : Action ε → Option (System ε)
  | .subscribe topics capacity =>
    if s.alive ∧ s.inFlight = none then
      some { s with
        registry := s.registry.filter s.isLive ++ [s.subscriptions.length]
        subscriptions := s.subscriptions ++ [⟨Slot.new topics capacity, true, s.nextSeq, []⟩] }
    else none
  | .publish event =>
    if s.alive ∧ s.inFlight = none then
      some { s with
        nextSeq := s.nextSeq + 1
        inFlight := some ⟨s.nextSeq, event, s.registry, []⟩
        log := s.log ++ [(s.nextSeq, event)] }
    else none
  | .visit contended =>
    match s.inFlight with
    | some ⟨seq, event, i :: rest, kept⟩ =>
      if s.isLive i then
        some { s.modify i (Subscription.visit topic ⟨seq, event, i :: rest, kept⟩ contended) with
          inFlight := some ⟨seq, event, rest, kept ++ [i]⟩ }
      else some { s with inFlight := some ⟨seq, event, rest, kept⟩ }
    | _ => none
  | .finish =>
    match s.inFlight with
    | some ⟨_, _, [], kept⟩ => some { s with registry := kept, inFlight := none }
    | _ => none
  | .tryRecv i => if s.isLive i then some (s.modify i Subscription.recv) else none
  | .drain i => if s.isLive i then some (s.modify i Subscription.drain) else none
  | .dropHandle i =>
    if s.isLive i then some (s.modify i fun sub => { sub with live := false }) else none
  | .subscriberCount =>
    if s.alive ∧ s.inFlight = none then some { s with registry := s.registry.filter s.isLive } else none
  | .dropBus => if s.alive ∧ s.inFlight = none then some { s with alive := false } else none
  | .close i =>
    if ¬ s.alive ∧ i ∈ s.registry ∧ s.isLive i then
      some (s.modify i fun sub => { sub with slot := sub.slot.close })
    else none

/-- The published events a subscription's filter matches, since it was made. -/
def System.matching (s : System ε) (sub : Subscription ε) : List (Nat × ε) :=
  s.log.filter fun p => sub.since ≤ p.1 && sub.slot.topics.contains (topic p.2)

/-- The matching event that is published and has not reached the slot yet. -/
def System.onItsWay (s : System ε) (i : Nat) (sub : Subscription ε) : List (Nat × ε) :=
  match s.inFlight with
  | some f => if i ∈ f.toVisit ∧ sub.slot.topics.contains (topic f.event) then [(f.seq, f.event)] else []
  | none => []

/-- The registry entries a publish in flight has kept or has still to visit. -/
def System.members (s : System ε) : List Nat :=
  match s.inFlight with
  | some f => f.kept ++ f.toVisit
  | none => s.registry

structure Inv (s : System ε) : Prop where
  log : s.log.map Prod.fst = List.range s.nextSeq
  flight : ∀ f, s.inFlight = some f → ∃ log, s.log = log ++ [(f.seq, f.event)]
  nodup : s.members.Nodup
  bound : ∀ i ∈ s.members, i < s.subscriptions.length
  member : ∀ (i : Nat) (sub : Subscription ε), s.subscriptions[i]? = some sub → sub.live = true → i ∈ s.members
  since : ∀ (i : Nat) (sub : Subscription ε), s.subscriptions[i]? = some sub → sub.since ≤ s.nextSeq
  accounts : ∀ (i : Nat) (sub : Subscription ε), s.subscriptions[i]? = some sub →
    sub.live = true → ∃ reached,
      s.matching topic sub = reached ++ s.onItsWay topic i sub ∧ sub.slot.Accounts sub.received reached

variable {topic}

theorem isLive_iff {s : System ε} {i : Nat} :
    s.isLive i = true ↔ ∃ sub, s.subscriptions[i]? = some sub ∧ sub.live = true := by
  simp [System.isLive, Option.any_eq_true]

theorem subscriptions_modify {s : System ε} {i j : Nat} {f : Subscription ε → Subscription ε}
    {sub : Subscription ε} :
    (s.modify i f).subscriptions[j]? = some sub ↔
      ∃ old, s.subscriptions[j]? = some old ∧ sub = if i = j then f old else old := by
  simp only [System.modify, List.getElem?_modify, Option.map_eq_map, Option.map_eq_some_iff]
  exact ⟨fun ⟨old, h, he⟩ => ⟨old, h, he.symm⟩, fun ⟨old, h, he⟩ => ⟨old, h, he.symm⟩⟩

/-- What one subscription does by itself, with its account kept, keeps the invariant. -/
theorem inv_modify {s : System ε} (hs : Inv topic s) (i : Nat) {f : Subscription ε → Subscription ε}
    (hlive : ∀ sub, (f sub).live = true → sub.live = true) (hsince : ∀ sub, (f sub).since = sub.since)
    (htopics : ∀ sub, (f sub).slot.topics = sub.slot.topics)
    (haccounts : ∀ sub log, sub.slot.Accounts sub.received log →
      (f sub).slot.Accounts (f sub).received log) :
    Inv topic (s.modify i f) := by
  refine ⟨hs.log, hs.flight, hs.nodup, ?_, ?_, ?_, ?_⟩
  · intro j hj
    simpa [System.modify] using hs.bound j hj
  · intro j sub hj hl
    obtain ⟨old, hold, rfl⟩ := subscriptions_modify.1 hj
    refine hs.member j old hold ?_
    split_ifs at hl
    · exact hlive old hl
    · exact hl
  · intro j sub hj
    obtain ⟨old, hold, rfl⟩ := subscriptions_modify.1 hj
    have := hs.since j old hold
    split_ifs
    · rwa [hsince]
    · exact this
  · intro j sub hj hl
    obtain ⟨old, hold, rfl⟩ := subscriptions_modify.1 hj
    split_ifs at hl ⊢
    · obtain ⟨reached, hm, ha⟩ := hs.accounts j old hold (hlive old hl)
      refine ⟨reached, ?_, haccounts old reached ha⟩
      unfold System.matching System.onItsWay at hm ⊢
      rw [hsince, htopics]
      exact hm
    · exact hs.accounts j old hold hl

theorem recv_accounts {sub : Subscription ε} {log : List (Nat × ε)}
    (h : sub.slot.Accounts sub.received log) : sub.recv.slot.Accounts sub.recv.received log :=
  tryRecv_accounts h

theorem tryRecv_topics (slot : Slot ε) : slot.tryRecv.1.topics = slot.topics := by
  unfold Slot.tryRecv
  split <;> rfl

@[simp] theorem offer_topics (slot : Slot ε) (contended : Bool) (seq : Nat) (event : ε) :
    (slot.offer contended seq event).topics = slot.topics := by
  unfold Slot.offer
  split_ifs <;> rfl

theorem close_accounts {slot : Slot ε} {received : List (Delivery ε)} {log : List (Nat × ε)}
    (h : slot.Accounts received log) : slot.close.Accounts received log := ⟨h.covers, h.total⟩

/-- The events published before a number are all in the log. -/
theorem log_lt {s : System ε} (hs : Inv topic s) {p : Nat × ε} (hp : p ∈ s.log) : p.1 < s.nextSeq := by
  have := List.mem_map_of_mem (f := Prod.fst) hp
  rw [hs.log] at this
  exact List.mem_range.1 this

theorem inv_prune {s : System ε} (hs : Inv topic s) (hf : s.inFlight = none) :
    Inv topic { s with registry := s.registry.filter s.isLive } := by
  have hm : s.members = s.registry := by simp [System.members, hf]
  have hm' : System.members { s with registry := s.registry.filter s.isLive } =
      s.registry.filter s.isLive := by
    simp [System.members, hf]
  refine ⟨hs.log, hs.flight, ?_, ?_, ?_, hs.since, hs.accounts⟩
  · rw [hm']
    exact (hm ▸ hs.nodup).filter _
  · rw [hm']
    exact fun i hi => hs.bound i (hm ▸ (List.mem_filter.1 hi).1)
  · intro i sub hi hl
    rw [hm', List.mem_filter]
    exact ⟨hm ▸ hs.member i sub hi hl, isLive_iff.2 ⟨sub, hi, hl⟩⟩

/-- A new subscription has been published nothing yet. -/
theorem inv_add {s : System ε} (hs : Inv topic s) (hf : s.inFlight = none) (topics : TopicSet)
    (capacity : Nat) :
    Inv topic { s with
      registry := s.registry ++ [s.subscriptions.length]
      subscriptions := s.subscriptions ++ [⟨Slot.new topics capacity, true, s.nextSeq, []⟩] } := by
  have hm : s.members = s.registry := by simp [System.members, hf]
  have hnodup := hs.nodup
  have hbound := hs.bound
  have hmember := hs.member
  rw [hm] at hnodup hbound hmember
  have hget {i : Nat} {sub : Subscription ε}
      (h : (s.subscriptions ++ [⟨Slot.new topics capacity, true, s.nextSeq, []⟩])[i]? = some sub) :
      s.subscriptions[i]? = some sub ∨
        i = s.subscriptions.length ∧ sub = ⟨Slot.new topics capacity, true, s.nextSeq, []⟩ := by
    rw [List.getElem?_append] at h
    split_ifs at h with hlt
    · exact .inl h
    · rw [List.getElem?_singleton] at h
      split_ifs at h with hz
      exact .inr ⟨by omega, (Option.some.inj h).symm⟩
  refine ⟨hs.log, hs.flight, ?_, ?_, ?_, ?_, ?_⟩
  · simp only [System.members, hf]
    refine List.nodup_append.2 ⟨hnodup, by simp, ?_⟩
    intro i hi j hj heq
    have := hbound i hi
    rw [heq, List.mem_singleton.1 hj] at this
    exact Nat.lt_irrefl _ this
  · intro i hi
    simp only [System.members, hf, List.mem_append, List.mem_singleton, List.length_append,
      List.length_singleton] at hi ⊢
    rcases hi with hi | rfl
    · have := hbound i hi
      omega
    · omega
  · intro i sub hi hl
    simp only [System.members, hf, List.mem_append, List.mem_singleton]
    rcases hget hi with hi | ⟨rfl, -⟩
    · exact .inl (hmember i sub hi hl)
    · exact .inr rfl
  · intro i sub hi
    rcases hget hi with hi | ⟨-, rfl⟩
    · exact hs.since i sub hi
    · exact Nat.le_refl _
  · intro i sub hi hl
    rcases hget hi with hi | ⟨-, rfl⟩
    · exact hs.accounts i sub hi hl
    · refine ⟨[], ?_, new_accounts topics capacity⟩
      have hnone : ∀ p ∈ s.log, ¬ (decide (s.nextSeq ≤ p.1) && topics.contains (topic p.2)) = true := by
        intro p hp
        have := log_lt hs hp
        simp only [Bool.and_eq_true, decide_eq_true_eq]
        omega
      simp only [System.matching, System.onItsWay, hf, List.append_nil]
      exact List.filter_eq_nil_iff.2 hnone

theorem inv_publish {s : System ε} (hs : Inv topic s) (hf : s.inFlight = none) (event : ε) :
    Inv topic { s with
      nextSeq := s.nextSeq + 1
      inFlight := some ⟨s.nextSeq, event, s.registry, []⟩
      log := s.log ++ [(s.nextSeq, event)] } := by
  have hm : s.members = s.registry := by simp [System.members, hf]
  have hnodup := hs.nodup
  have hbound := hs.bound
  have hmember := hs.member
  rw [hm] at hnodup hbound hmember
  refine ⟨?_, ?_, by simpa [System.members] using hnodup, by simpa [System.members] using hbound,
    by simpa [System.members] using hmember, ?_, ?_⟩
  · simp only [List.map_append, hs.log, List.range_succ]
    rfl
  · rintro f hfl
    cases hfl
    exact ⟨s.log, rfl⟩
  · exact fun i sub hi => Nat.le_succ_of_le (hs.since i sub hi)
  · intro i sub hi hl
    obtain ⟨reached, hmatch, hacc⟩ := hs.accounts i sub hi hl
    refine ⟨reached, ?_, hacc⟩
    have hway : s.onItsWay topic i sub = [] := by simp [System.onItsWay, hf]
    rw [hway, List.append_nil] at hmatch
    have hsince := hs.since i sub hi
    have hreg := hmember i sub hi hl
    simp only [System.matching, System.onItsWay, List.filter_append] at hmatch ⊢
    rw [hmatch]
    by_cases hc : sub.slot.topics.contains (topic event) = true
    · simp [hsince, hreg, hc]
    · simp [hc]

theorem visit_live (f : InFlight ε) (contended : Bool) (sub : Subscription ε) :
    (sub.visit topic f contended).live = sub.live := by
  unfold Subscription.visit
  split_ifs <;> rfl

theorem visit_since (f : InFlight ε) (contended : Bool) (sub : Subscription ε) :
    (sub.visit topic f contended).since = sub.since := by
  unfold Subscription.visit
  split_ifs <;> rfl

theorem visit_topics (f : InFlight ε) (contended : Bool) (sub : Subscription ε) :
    (sub.visit topic f contended).slot.topics = sub.slot.topics := by
  unfold Subscription.visit
  split_ifs
  · exact offer_topics sub.slot contended f.seq f.event
  · rfl

theorem visit_accounts (f : InFlight ε) (contended : Bool) {sub : Subscription ε}
    {log : List (Nat × ε)} (h : sub.slot.Accounts sub.received log) :
    (sub.visit topic f contended).slot.Accounts (sub.visit topic f contended).received
      (log ++ if sub.slot.topics.contains (topic f.event) then [(f.seq, f.event)] else []) := by
  unfold Subscription.visit
  split_ifs
  · exact offer_accounts h contended f.seq f.event
  · rwa [List.append_nil]

theorem inv_visit_live {s : System ε} (hs : Inv topic s) {seq : Nat} {event : ε} {i : Nat}
    {rest kept : List Nat} (hf : s.inFlight = some ⟨seq, event, i :: rest, kept⟩) (contended : Bool) :
    Inv topic { s.modify i (Subscription.visit topic ⟨seq, event, i :: rest, kept⟩ contended) with
      inFlight := some ⟨seq, event, rest, kept ++ [i]⟩ } := by
  have hm : s.members = kept ++ i :: rest := by simp [System.members, hf]
  have hnodup := hs.nodup
  have hbound := hs.bound
  have hmember := hs.member
  rw [hm] at hnodup hbound hmember
  have hrest : i ∉ rest := (List.nodup_cons.1 (List.nodup_append.1 hnodup).2.1).1
  refine ⟨hs.log, ?_, ?_, ?_, ?_, ?_, ?_⟩
  · rintro f hfl
    cases hfl
    exact hs.flight ⟨seq, event, i :: rest, kept⟩ hf
  · simpa [System.members] using hnodup
  · simpa [System.members, System.modify] using hbound
  · intro j sub hj hl
    obtain ⟨old, hold, rfl⟩ := subscriptions_modify.1 hj
    have hlive : old.live = true := by
      split_ifs at hl
      · rwa [visit_live] at hl
      · exact hl
    simpa [System.members] using hmember j old hold hlive
  · intro j sub hj
    obtain ⟨old, hold, rfl⟩ := subscriptions_modify.1 hj
    have := hs.since j old hold
    split_ifs
    · rwa [visit_since]
    · exact this
  · intro j sub hj hl
    obtain ⟨old, hold, rfl⟩ := subscriptions_modify.1 hj
    split_ifs at hl ⊢ with hij
    · subst hij
      rw [visit_live] at hl
      obtain ⟨reached, hmatch, hacc⟩ := hs.accounts i old hold hl
      refine ⟨_, ?_, visit_accounts ⟨seq, event, i :: rest, kept⟩ contended hacc⟩
      simp only [System.matching, System.onItsWay, hf, visit_since, visit_topics] at hmatch ⊢
      simpa [hrest, System.modify] using hmatch
    · obtain ⟨reached, hmatch, hacc⟩ := hs.accounts j old hold hl
      refine ⟨reached, ?_, hacc⟩
      have hji : j ≠ i := fun h => hij h.symm
      simpa [System.matching, System.onItsWay, hf, hji, System.modify] using hmatch

theorem inv_visit_dead {s : System ε} (hs : Inv topic s) {seq : Nat} {event : ε} {i : Nat}
    {rest kept : List Nat} (hf : s.inFlight = some ⟨seq, event, i :: rest, kept⟩)
    (hl : ¬ s.isLive i = true) :
    Inv topic { s with inFlight := some ⟨seq, event, rest, kept⟩ } := by
  have hm : s.members = kept ++ i :: rest := by simp [System.members, hf]
  have hne {j : Nat} {sub : Subscription ε} (hj : s.subscriptions[j]? = some sub)
      (hlj : sub.live = true) : j ≠ i := by
    rintro rfl
    exact hl (isLive_iff.2 ⟨sub, hj, hlj⟩)
  have hsub : (kept ++ rest).Sublist (kept ++ i :: rest) :=
    List.Sublist.append (List.Sublist.refl kept) (List.sublist_cons_self i rest)
  have hnodup := hs.nodup
  have hbound := hs.bound
  have hmember := hs.member
  rw [hm] at hnodup hbound hmember
  refine ⟨hs.log, ?_, hsub.nodup hnodup, fun j hj => hbound j (hsub.subset hj), ?_, hs.since, ?_⟩
  · rintro f hfl
    cases hfl
    exact hs.flight ⟨seq, event, i :: rest, kept⟩ hf
  · intro j sub hj hlj
    have := hmember j sub hj hlj
    simpa [System.members, hne hj hlj] using this
  · intro j sub hj hlj
    obtain ⟨reached, hmatch, hacc⟩ := hs.accounts j sub hj hlj
    refine ⟨reached, ?_, hacc⟩
    simpa [System.matching, System.onItsWay, hf, hne hj hlj] using hmatch

theorem inv_finish {s : System ε} (hs : Inv topic s) {seq : Nat} {event : ε} {kept : List Nat}
    (hf : s.inFlight = some ⟨seq, event, [], kept⟩) :
    Inv topic { s with registry := kept, inFlight := none } := by
  have hm : s.members = kept := by simp [System.members, hf]
  refine ⟨hs.log, nofun, hm ▸ hs.nodup, hm ▸ hs.bound, ?_, hs.since, ?_⟩
  · exact fun i sub hi hl => hm ▸ hs.member i sub hi hl
  · intro i sub hi hl
    obtain ⟨reached, hmatch, hacc⟩ := hs.accounts i sub hi hl
    refine ⟨reached, ?_, hacc⟩
    simpa [System.matching, System.onItsWay, hf] using hmatch

variable (topic)

theorem inv_new : Inv topic (System.new : System ε) := by
  refine ⟨rfl, nofun, List.nodup_nil, ?_, ?_, ?_, ?_⟩ <;> simp [System.new, System.members]

/-- Every step keeps every account. -/
theorem inv_step (s : System ε) (a : Action ε) (s' : System ε) (hs : Inv topic s)
    (h : step topic s a = some s') : Inv topic s' := by
  cases a with
  | subscribe topics capacity =>
    simp only [step, Option.ite_none_right_eq_some] at h
    obtain ⟨⟨-, hf⟩, h⟩ := h
    cases h
    exact inv_add (inv_prune hs hf) hf topics capacity
  | publish event =>
    simp only [step, Option.ite_none_right_eq_some] at h
    obtain ⟨⟨-, hf⟩, h⟩ := h
    cases h
    exact inv_publish hs hf event
  | visit contended =>
    simp only [step] at h
    split at h
    · rename_i seq event i rest kept hf
      split_ifs at h with hl
      · cases h
        exact inv_visit_live hs hf contended
      · cases h
        exact inv_visit_dead hs hf hl
    · cases h
  | finish =>
    simp only [step] at h
    split at h
    · rename_i seq event kept hf
      cases h
      exact inv_finish hs hf
    · cases h
  | tryRecv i =>
    simp only [step, Option.ite_none_right_eq_some] at h
    obtain ⟨-, h⟩ := h
    cases h
    exact inv_modify hs i (fun _ hl => hl) (fun _ => rfl) (fun sub => tryRecv_topics sub.slot)
      fun _ _ => recv_accounts
  | drain i =>
    simp only [step, Option.ite_none_right_eq_some] at h
    obtain ⟨-, h⟩ := h
    cases h
    exact inv_modify hs i (fun _ hl => hl) (fun _ => rfl) (fun _ => rfl) fun _ _ => drain_accounts
  | dropHandle i =>
    simp only [step, Option.ite_none_right_eq_some] at h
    obtain ⟨-, h⟩ := h
    cases h
    exact inv_modify hs i nofun (fun _ => rfl) (fun _ => rfl) fun _ _ ha => ha
  | subscriberCount =>
    simp only [step, Option.ite_none_right_eq_some] at h
    obtain ⟨⟨-, hf⟩, h⟩ := h
    cases h
    exact inv_prune hs hf
  | dropBus =>
    simp only [step, Option.ite_none_right_eq_some] at h
    obtain ⟨-, h⟩ := h
    cases h
    exact ⟨hs.log, hs.flight, hs.nodup, hs.bound, hs.member, hs.since, hs.accounts⟩
  | close i =>
    simp only [step, Option.ite_none_right_eq_some] at h
    obtain ⟨-, h⟩ := h
    cases h
    exact inv_modify hs i (fun _ hl => hl) (fun _ => rfl) (fun _ => rfl) fun _ _ => close_accounts

theorem inv_run (as : List (Action ε)) {s : System ε} (h : Run.run (step topic) System.new as = some s) :
    Inv topic s :=
  Run.run_invariant (inv_step topic) as (inv_new topic) h

/-- The numbers of the log increase. -/
theorem log_increasing {s : System ε} (hs : Inv topic s) : s.log.Pairwise fun a b => a.1 < b.1 := by
  have h : (s.log.map Prod.fst).Pairwise (· < ·) := hs.log ▸ List.pairwise_lt_range
  exact List.pairwise_map.1 h

/-- Every loss is accounted for once, in every state of every interleaving: the matching events are
those a subscription received, those it buffers, those it lost, and the one that a publish under
way has yet to bring it. -/
theorem loss_accounting (as : List (Action ε)) (s : System ε)
    (h : Run.run (step topic) System.new as = some s) (i : Nat) (sub : Subscription ε)
    (hi : s.subscriptions[i]? = some sub) (hl : sub.live = true) :
    (s.inFlight = none → sub.received.length + sub.slot.queue.ring.length + sub.slot.missedTotal =
      (s.matching topic sub).length) ∧
    (sub.received.length + sub.slot.queue.ring.length + sub.slot.missedTotal +
        (s.onItsWay topic i sub).length = (s.matching topic sub).length) ∧
    ((sub.received.map Delivery.missedBefore).sum + (sub.slot.queue.ring.map Delivery.missedBefore).sum +
        sub.slot.pendingMissed = sub.slot.missedTotal) ∧
    (∀ before d after, sub.received = before ++ d :: after →
      (d.seq, d.event) ∈ s.matching topic sub ∧
      d.missedBefore = ((s.matching topic sub).filter fun p =>
        (before.getLast?.all fun last => last.seq < p.1) && p.1 < d.seq).length) ∧
    (sub.received.map Delivery.seq).Pairwise (· < ·) := by
  have hs := inv_run topic as h
  obtain ⟨reached, hmatch, hcovers, htotal⟩ := hs.accounts i sub hi hl
  have hincreasing : (s.matching topic sub).Pairwise fun a b => a.1 < b.1 :=
    (log_increasing topic hs).filter _
  rw [hmatch] at hincreasing ⊢
  have hsub : ((sub.received ++ sub.slot.queue.ring).map fun d => (d.seq, d.event)).Sublist reached := by
    simpa [Delivery.gapped, Function.comp_def] using hcovers.sublist
  refine ⟨?_, ?_, ?_, ?_, ?_⟩
  · intro hf
    simp [System.onItsWay, hf, htotal]
  · rw [List.length_append, htotal]
  · have hlength := hcovers.length
    simp only [List.map_map, List.length_map, List.length_append, List.map_append, List.sum_append] at hlength
    have hgap : (Gapped.gap ∘ Delivery.gapped : Delivery ε → Nat) = Delivery.missedBefore := rfl
    rw [hgap] at hlength
    omega
  · intro before d after hd
    have hmem : (d.seq, d.event) ∈ reached := hsub.subset (by simp [hd])
    refine ⟨List.mem_append_left _ hmem, ?_⟩
    rw [hd, List.append_assoc, List.cons_append, List.map_append, List.map_cons] at hcovers
    have hgap := hcovers.gap_eq Prod.fst (List.pairwise_append.1 hincreasing).1
    have hway : ∀ p ∈ s.onItsWay topic i sub,
        ¬ ((before.getLast?.all fun last => last.seq < p.1) && p.1 < d.seq) = true := by
      intro p hp
      have := (List.pairwise_append.1 hincreasing).2.2 _ hmem p hp
      simp only [Bool.and_eq_true, decide_eq_true_eq]
      omega
    rw [List.filter_append, List.filter_eq_nil_iff.2 hway, List.append_nil]
    simp only [List.getLast?_map, Option.all_map] at hgap
    exact hgap
  · have hpair := (List.pairwise_append.1 hincreasing).1.sublist hsub
    rw [List.map_append] at hpair
    have hreceived := List.pairwise_map.1 (List.pairwise_append.1 hpair).1
    exact List.pairwise_map.2 hreceived

/-- A ring of one delivery: the first event is evicted by the second, and the third finds the
queue locked. -/
def overflowRun : List (Action Topic) :=
  [.subscribe ((TopicSet.of .turn).union (TopicSet.of .tool)) 1,
    .publish .turn, .visit false, .finish, .publish .tool, .visit false, .finish,
    .publish .turn, .visit true, .finish, .tryRecv 0]

theorem loss_accounting_overflow :
    ∃ s sub, Run.run (step id) System.new overflowRun = some s ∧ s.subscriptions[0]? = some sub ∧
      sub.received.map Delivery.missedBefore = [1] ∧ sub.slot.missedTotal = 2 ∧
      sub.received.length + sub.slot.queue.ring.length + sub.slot.missedTotal =
        (s.matching id sub).length :=
  ⟨_, _, rfl, rfl, rfl, rfl, (loss_accounting id overflowRun _ rfl 0 _ rfl rfl).1 rfl⟩

end Steps

end SupraHarness.EventBus
