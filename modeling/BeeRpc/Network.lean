import BeeRpc.Relay

namespace BeeRpc

open Wire Effect Naming Interleaving

-- A process with its settings, its block directory and the objects in its cache directory. An
-- object is named by the number of the one that it is a copy of.
structure Peer where
  env : Enviroment
  registry : Registry
  objects : List (Nat × Stored) := []

namespace Peer

variable (peer : Peer) (type : Field)

-- Both ends of a transfer have the same index map, and objects are received as Dirs.
def sender : Sender where
  env := peer.env
  registry := peer.registry
  parseBlock _ := none
  indices := [(1, type)]

def receiver (control : Bool) : Receiver where
  env := peer.env
  parse _ _ := none
  indices := [(1, type)]
  partitionsMessageMode := .inl false
  control

def world : World := { registry := peer.registry, requests := [] }

end Peer

-- How the Buffers of a transfer come to the other end: as one stream, or over a call whose
-- receiver asks to skip blocks, with the turns of its two parties.
inductive Route where
  | stream
  | call (schedule : List Duplex.Turn)

def Route.control : Route → Bool
  | .stream => false
  | .call _ => true

-- What the parser takes in all; a call that is not over has no place among whole transfers.
def Route.carry (sender : Sender) (receiver : Receiver) (w : World) (messages : List Outgoing) :
    Route → Option (List Buffer)
  | .stream => some (serializeToBuffer sender messages).items
  | .call schedule =>
      (Interleaving.run (Duplex.step sender.env receiver w) (Duplex.start w sender messages)
        schedule).bind fun s => if s.unsent = [] ∧ s.forward = [] then some s.pulled else none

-- Some of the source's objects for the target.
structure Transfer (ι : Type) where
  source : ι
  target : ι
  picks : List Nat
  type : Field
  route : Route

def Result.stored? : Result → Option Stored
  | .dir d => some d.stored
  | .value _ => none

structure Network (ι : Type) where
  peer : ι → Peer
  raised : List Err := []

namespace Network

variable {ι : Type}

def picked (s : Network ι) (t : Transfer ι) : List (Nat × Stored) :=
  t.picks.filterMap fun n => (s.peer t.source).objects[n]?

def step [DecidableEq ι] (s : Network ι) (t : Transfer ι) : Option (Network ι) :=
  let sender := (s.peer t.source).sender t.type
  let target := s.peer t.target
  let receiver := target.receiver t.type t.route.control
  let messages := (s.picked t).map fun object => Outgoing.dir object.2 t.type
  (t.route.carry sender receiver target.world messages).map fun requests =>
    let outcome := parseFromBuffer receiver { target.world with requests }
    let copies := ((s.picked t).map Prod.fst).zip (outcome.1.items.filterMap Result.stored?)
    { peer := Function.update s.peer t.target { target with
        registry := outcome.2.registry, objects := target.objects ++ copies }
      raised := s.raised ++ (serializeToBuffer sender messages).raised.toList ++
        outcome.1.raised.toList }

-- Every peer has complete blocks and objects under names that all peers give the same contents,
-- and every copy is one of the object that it is named by.
structure Sound (algorithm : Bytes → Bytes) (contents : Nat → Bytes) (s : Network ι) : Prop where
  algorithm : ∀ i, (s.peer i).env.hashFactory = algorithm
  depth : ∀ i, (s.peer i).env.blockDepth ≤ MAX_BLOCK_NESTING
  correct : ∀ i, (s.peer i).registry.Correct (s.peer i).env
  complete : ∀ i, ∀ object ∈ (s.peer i).objects, object.2.Complete (s.peer i).registry
  expands : ∀ i, ∀ object ∈ (s.peer i).objects,
    object.2.expandWith (s.peer i).registry.expansion = some (contents object.1)
  agrees : ∀ i j, (s.peer i).registry.Agrees (s.peer j).registry

-- Nothing that a peer had is lost.
structure Grows (s s' : Network ι) : Prop where
  settings : ∀ i, (s'.peer i).env = (s.peer i).env
  registry : ∀ i, (s.peer i).registry.Grows (s'.peer i).registry
  objects : ∀ i, (s.peer i).objects <+: (s'.peer i).objects

theorem Grows.refl (s : Network ι) : s.Grows s :=
  ⟨fun _ => rfl, fun _ => .refl _, fun _ => List.prefix_refl _⟩

theorem Grows.trans {s s' s'' : Network ι} (h : s.Grows s') (h' : s'.Grows s'') : s.Grows s'' :=
  ⟨fun i => (h'.settings i).trans (h.settings i), fun i => (h.registry i).trans (h'.registry i),
    fun i => (h.objects i).trans (h'.objects i)⟩

end Network

section Carrying

-- The path of a Dir does not matter for what can be sent on.
theorem relayed_unnamed {env : Enviroment} {sender receiver : Registry} {messages : List Outgoing}
    {results others : List Result} (hsame : others.map Result.unnamed = results.map Result.unnamed)
    (h : AllRelayed env sender receiver messages results) :
    AllRelayed env sender receiver messages others := by
  unfold AllRelayed at h ⊢
  induction h generalizing others with
  | nil =>
      obtain rfl := List.map_eq_nil_iff.mp hsame
      exact .nil
  | @cons message result messages results hone hrest ih =>
      obtain ⟨first, rest, rfl, hfirst, hmore⟩ := List.map_eq_cons_iff.mp hsame
      refine .cons ?_ (ih hmore)
      obtain ⟨dir, rfl, hrelayed⟩ := hone
      cases first with
      | value value => cases hfirst
      | dir copy =>
          obtain ⟨-, hstored, htype⟩ := Dir.mk.inj (Result.dir.inj hfirst)
          obtain ⟨path, stored, type⟩ := copy
          simp only at hstored htype
          subst hstored htype
          exact ⟨_, rfl, ⟨hrelayed.delivered.type, hrelayed.delivered.expands,
            hrelayed.delivered.same⟩, hrelayed.complete, hrelayed.written, hrelayed.flat⟩

theorem exists_index (peer target : Peer) (type : Field) (control : Bool)
    (messages : List Outgoing) : ∃ index,
      (peer.sender type).indexOf messages type = some index ∧
        (target.receiver type control).allIndices.lookup index = some type := by
  cases type with
  | bytes => exact ⟨0, rfl, rfl⟩
  | str => exact ⟨1, rfl, rfl⟩
  | message cls =>
      refine ⟨1, ?_, by simp [Receiver.allIndices, Peer.receiver, Dict.set]⟩
      simp [Sender.indexOf, Sender.allIndices, Peer.sender, Dict.set, Sender.reversed, Dict.ofList,
        Dict.update, Except.toOption]

-- Over any route the target ends up with what it can send on, and contradicts no one.
theorem carry_relays (route : Route) {sender : Sender} {receiver : Receiver}
    {messages : List Outgoing} (h : Link sender receiver messages) (hskips : sender.skips = none)
    (hcontrol : receiver.control = route.control) (w : World)
    (hreceiver : w.registry.Correct receiver.env) (hagrees : sender.registry.Agrees w.registry)
    (hscratch : w.scratch = []) (hasked : w.asked = []) {requests : List Buffer}
    (hcarry : route.carry sender receiver w messages = some requests) :
    let outcome := parseFromBuffer receiver { w with requests }
    (serializeToBuffer sender messages).raised = none ∧ outcome.1.raised = none ∧
      AllRelayed receiver.env sender.registry outcome.2.registry messages outcome.1.items ∧
      w.registry.Grows outcome.2.registry ∧ outcome.2.registry.Correct receiver.env ∧
      ∀ other : Registry, other.Agrees sender.registry → other.Agrees w.registry →
        other.Agrees outcome.2.registry := by
  intro outcome
  have hwhole := relay h hskips w hreceiver hagrees hscratch
  cases route with
  | stream =>
      obtain rfl := Option.some.inj hcarry
      exact hwhole
  | call schedule =>
      have hsound : ∀ requests, { w with requests }.Sound receiver.env := fun requests =>
        ⟨hreceiver.addressed, fun path hpath => by simp [hscratch] at hpath⟩
      obtain ⟨s, hrun, hover⟩ := Option.bind_eq_some_iff.mp hcarry
      obtain ⟨⟨hunsent, hforward⟩, heq⟩ := Option.ite_none_right_eq_some.mp hover
      obtain rfl := Option.some.inj heq
      obtain ⟨entries, departed, queued, hpayload, -⟩ :=
        call_invariant h.algorithm h.isCorrect hsound hasked hrun
      obtain ⟨-, results₀, w₀, results, w', houtcome₀, houtcome, hresults, hregistry⟩ :=
        call_completes h hcontrol hsound hagrees hasked hpayload hunsent hforward
      rw [show { sender with skips := none } = sender by rw [← hskips]] at houtcome₀
      simp only [houtcome₀] at hwhole
      obtain ⟨hraised, -, hrelayed, hgrows, hafter, hothers⟩ := hwhole
      rw [show outcome = _ from houtcome, hregistry]
      exact ⟨hraised, rfl, relayed_unnamed hresults hrelayed, hgrows, hafter, hothers⟩

end Carrying

section Transferring

variable {ι : Type} {algorithm : Bytes → Bytes} {contents : Nat → Bytes}

theorem mem_copies {env : Enviroment} {sender receiver : Registry} {type : Field}
    {picked : List (Nat × Stored)} {results : List Result}
    (h : AllRelayed env sender receiver (picked.map fun object => Outgoing.dir object.2 type) results)
    {copy : Nat × Stored}
    (hcopy : copy ∈ (picked.map Prod.fst).zip (results.filterMap Result.stored?)) :
    ∃ object ∈ picked, ∃ dir, copy = (object.1, dir.stored) ∧
      Relayed env sender receiver (.dir object.2 type) dir := by
  induction picked generalizing results with
  | nil => exact absurd hcopy List.not_mem_nil
  | cons object picked ih =>
      obtain ⟨result, rest, ⟨dir, rfl, hrelayed⟩, hrest, rfl⟩ := List.forall₂_cons_left_iff.mp h
      rcases List.mem_cons.mp hcopy with rfl | hcopy
      · exact ⟨object, List.mem_cons_self .., dir, rfl, hrelayed⟩
      · obtain ⟨other, hother, hfacts⟩ := ih hrest hcopy
        exact ⟨other, List.mem_cons_of_mem _ hother, hfacts⟩

theorem mem_picked {s : Network ι} {t : Transfer ι} {object : Nat × Stored}
    (h : object ∈ s.picked t) : object ∈ (s.peer t.source).objects := by
  obtain ⟨n, -, hn⟩ := List.mem_filterMap.mp h
  exact List.mem_of_getElem? hn

-- What a transfer makes of its target: it has what it had, and copies of the source's objects.
structure Transfer.Arrives (s : Network ι) (t : Transfer ι) (after : Peer) : Prop where
  settings : after.env = (s.peer t.target).env
  correct : after.registry.Correct after.env
  grows : (s.peer t.target).registry.Grows after.registry
  objects : (s.peer t.target).objects <+: after.objects
  copies : ∀ copy ∈ after.objects, copy ∈ (s.peer t.target).objects ∨
    ∃ object ∈ (s.peer t.source).objects, ∃ dir, copy = (object.1, dir.stored) ∧
      Relayed after.env (s.peer t.source).registry after.registry (.dir object.2 t.type) dir
  others : ∀ other : Registry, other.Agrees (s.peer t.source).registry →
    other.Agrees (s.peer t.target).registry → other.Agrees after.registry

variable [DecidableEq ι]

-- One transfer, between any two peers and over any route, raises nothing and changes its target
-- alone.
theorem step_arrives (hd : ∀ content, algorithm content ≠ []) {s s' : Network ι} {t : Transfer ι}
    (h : s.Sound algorithm contents) (hstep : s.step t = some s') :
    ∃ after, t.Arrives s after ∧
      s' = { peer := Function.update s.peer t.target after, raised := s.raised } := by
  simp only [Network.step] at hstep
  obtain ⟨requests, hcarry, rfl⟩ := Option.map_eq_some_iff.mp hstep
  let source := s.peer t.source
  let target := s.peer t.target
  let receiver := target.receiver t.type t.route.control
  let messages := (s.picked t).map fun object => Outgoing.dir object.2 t.type
  let outcome := parseFromBuffer receiver { target.world with requests }
  have hmessage : ∀ message ∈ messages,
      message.type = t.type ∧ message.stored.Complete source.registry := by
    intro message hmem
    obtain ⟨object, hobject, rfl⟩ := List.mem_map.mp hmem
    exact ⟨rfl, h.complete t.source object (mem_picked hobject)⟩
  have hlink : Link (source.sender t.type) receiver messages :=
    { digests := fun content => (h.algorithm t.source).symm ▸ hd content
      algorithm := (h.algorithm t.source).trans (h.algorithm t.target).symm
      depth := h.depth t.source
      registry := h.correct t.source
      complete := fun message hmem => (hmessage message hmem).2
      ready := Or.inr (by simp [Peer.sender, Dict.set])
      indices := fun message hmem => by
        rw [(hmessage message hmem).1]
        exact exists_index source target t.type t.route.control messages
      mode := ⟨List.cons_ne_nil _ _, rfl⟩ }
  obtain ⟨hstream, hraised, hrelayed, hgrows, hcorrect, hothers⟩ := carry_relays t.route hlink rfl rfl
    target.world (h.correct t.target) (h.agrees t.source t.target) rfl rfl hcarry
  let after : Peer := { target with
    registry := outcome.2.registry
    objects := target.objects ++
      ((s.picked t).map Prod.fst).zip (outcome.1.items.filterMap Result.stored?) }
  refine ⟨after, ⟨rfl, hcorrect, hgrows, List.prefix_append _ _, ?_, hothers⟩, ?_⟩
  · intro copy hcopy
    rcases List.mem_append.mp hcopy with hold | hnew
    · exact Or.inl hold
    · obtain ⟨object, hobject, hfacts⟩ := mem_copies hrelayed hnew
      exact Or.inr ⟨object, mem_picked hobject, hfacts⟩
  · rw [hstream, hraised, Option.toList_none, List.append_nil, List.append_nil]

-- What holds of the target, and of every peer as it was, holds of all of them.
theorem forall_update {peer : ι → Peer} {target : ι} {after : Peer} {P : ι → Peer → Prop}
    (hafter : P target after) (hrest : ∀ i, P i (peer i)) :
    ∀ i, P i (Function.update peer target after i) := by
  intro i
  by_cases hi : i = target
  · subst hi
    rwa [Function.update_self]
  · rw [Function.update_of_ne hi]
    exact hrest i

theorem transfer_keeps (hd : ∀ content, algorithm content ≠ []) {s s' : Network ι}
    {t : Transfer ι} (h : s.Sound algorithm contents) (hstep : s.step t = some s') :
    s'.Sound algorithm contents ∧ s.Grows s' ∧ s'.raised = s.raised := by
  obtain ⟨after, harrives, rfl⟩ := step_arrives hd h hstep
  have hagrees : ∀ i, (s.peer i).registry.Agrees after.registry := fun i =>
    harrives.others (s.peer i).registry (h.agrees i t.source) (h.agrees i t.target)
  have hobjects : ∀ object ∈ after.objects, object.2.Complete after.registry ∧
      object.2.expandWith after.registry.expansion = some (contents object.1) := by
    intro object hobject
    rcases harrives.copies object hobject with hold | ⟨original, horiginal, dir, rfl, hrelayed⟩
    · exact ⟨(h.complete t.target object hold).grows harrives.grows,
        Stored.expandWith_mono harrives.grows (h.expands t.target object hold)⟩
    · obtain ⟨content, hsent, hreceived⟩ := hrelayed.delivered.expands
      obtain rfl := Option.some.inj ((h.expands t.source original horiginal).symm.trans hsent)
      exact ⟨hrelayed.complete, hreceived⟩
  refine ⟨⟨?_, ?_, ?_, ?_, ?_, ?_⟩, ⟨?_, ?_, ?_⟩, rfl⟩
  · refine forall_update (P := fun _ peer => peer.env.hashFactory = algorithm) ?_ h.algorithm
    rw [harrives.settings]
    exact h.algorithm t.target
  · refine forall_update (P := fun _ peer => peer.env.blockDepth ≤ MAX_BLOCK_NESTING) ?_ h.depth
    rw [harrives.settings]
    exact h.depth t.target
  · exact forall_update (P := fun _ peer => peer.registry.Correct peer.env) harrives.correct h.correct
  · exact forall_update (P := fun _ peer => ∀ object ∈ peer.objects, object.2.Complete peer.registry)
      (fun object hobject => (hobjects object hobject).1) h.complete
  · exact forall_update (P := fun _ peer => ∀ object ∈ peer.objects,
        object.2.expandWith peer.registry.expansion = some (contents object.1))
      (fun object hobject => (hobjects object hobject).2) h.expands
  · refine forall_update (P := fun _ peer => ∀ j,
      peer.registry.Agrees (Function.update s.peer t.target after j).registry) ?_ fun i => ?_
    · exact forall_update (P := fun _ peer => after.registry.Agrees peer.registry) (.refl _)
        fun j => (hagrees j).symm
    · exact forall_update (P := fun _ peer => (s.peer i).registry.Agrees peer.registry) (hagrees i)
        (h.agrees i)
  · exact forall_update (P := fun i peer => peer.env = (s.peer i).env) harrives.settings fun _ => rfl
  · exact forall_update (P := fun i peer => (s.peer i).registry.Grows peer.registry) harrives.grows
      fun _ => .refl _
  · exact forall_update (P := fun i peer => (s.peer i).objects <+: peer.objects) harrives.objects
      fun _ => List.prefix_refl _

-- Objects among any number of peers, in any order of transfers and over any routes. No transfer
-- raises anything or takes anything away, every peer can send on what it has, and every copy
-- of an object has the object's contents, however many peers it has come through.
theorem network_preserves (hd : ∀ content, algorithm content ≠ []) (s s' : Network ι)
    (transfers : List (Transfer ι)) (h : s.Sound algorithm contents)
    (hrun : Interleaving.run Network.step s transfers = some s') :
    s'.Sound algorithm contents ∧ s.Grows s' ∧ s'.raised = s.raised := by
  have hkeeps : ∀ (now : Network ι) (t : Transfer ι) (next : Network ι),
      (now.Sound algorithm contents ∧ s.Grows now ∧ now.raised = s.raised) →
      now.step t = some next →
      next.Sound algorithm contents ∧ s.Grows next ∧ next.raised = s.raised := by
    rintro now t next ⟨hsound, hgrows, hraised⟩ hstep
    obtain ⟨hsound', hgrows', hraised'⟩ := transfer_keeps hd hsound hstep
    exact ⟨hsound', hgrows.trans hgrows', hraised'.trans hraised⟩
  exact invariant_run_all hkeeps transfers ⟨h, .refl s, rfl⟩ hrun

inductive Station where
  | origin
  | relay
  | mirror
  deriving Repr, DecidableEq

-- One peer with an object, and two that have nothing and differ in their settings.
def Network.sample : Network Station where
  peer
    | .origin => { env := Sender.sample.env, registry := .sample, objects := [(0, .dir .around)] }
    | .relay => { env := { Sender.sample.env with skipWbpGeneration := true }, registry := [] }
    | .mirror => { env := Sender.sample.env, registry := [] }

-- The object goes round, and over the last hop its blocks are asked to be skipped.
def Transfer.samples : List (Transfer Station) :=
  [⟨.origin, .relay, [0], .message 7, .stream⟩, ⟨.relay, .mirror, [0], .bytes, .stream⟩,
    ⟨.mirror, .origin, [0], .message 7, .call Duplex.late⟩]

def Network.sampleContents (_ : Nat) : Bytes := [5, 10, 4, 10, 2, 5, 6]

theorem sample_sound :
    Network.sample.Sound Enviroment.sample.hashFactory Network.sampleContents := by
  refine ⟨?_, ?_, ?_, ?_, ?_, ?_⟩
  · intro i
    cases i <;> rfl
  · intro i
    cases i <;> decide
  · intro i
    cases i with
    | origin => exact sample_correct
    | relay => exact Registry.correct_nil _
    | mirror => exact Registry.correct_nil _
  · intro i object hobject
    cases i with
    | origin =>
        rw [List.mem_singleton.mp hobject]
        exact around_complete
    | relay => exact absurd hobject List.not_mem_nil
    | mirror => exact absurd hobject List.not_mem_nil
  · intro i object hobject
    cases i with
    | origin =>
        rw [List.mem_singleton.mp hobject]
        decide
    | relay => exact absurd hobject List.not_mem_nil
    | mirror => exact absurd hobject List.not_mem_nil
  · intro i j
    cases i <;> cases j <;> first | exact .refl _ | exact Registry.agrees_nil _ |
      exact (Registry.agrees_nil _).symm

theorem network_preserves_sample :
    let s : Network Station := .sample
    let s' := (Interleaving.run Network.step s Transfer.samples).getD s
    s'.Sound Enviroment.sample.hashFactory Network.sampleContents ∧ s.Grows s' ∧
      s'.raised = s.raised := by
  have hsome : (Interleaving.run Network.step Network.sample Transfer.samples).isSome = true := by
    decide +kernel
  exact network_preserves (fun _ => List.cons_ne_nil _ _) .sample _ Transfer.samples sample_sound
    ((Option.eq_some_of_isSome hsome).trans (congrArg some (Option.get_eq_getD _)))

end Transferring

end BeeRpc
