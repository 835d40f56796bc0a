import BeeRpc.Acts
import BeeRpc.Course
import BeeRpc.Interleaving.Run

namespace BeeRpc

open Wire Effect Naming Interleaving

-- Heads and separators go out as they are, and each message is read through a filter of its own.
def Buffer.isFrame (b : Buffer) : Bool := b.head.isSome || b.isSeparator

-- A call whose one direction carries objects and whose other one carries the requests to skip
-- blocks of them.
structure Duplex where
  -- what serialize_to_buffer has to hand on, before skip_requested_blocks
  unsent : List Buffer
  filter : Skipping := {}
  -- StreamControl._skip at the sender
  skip : List BlockId := []
  -- on its way to the receiver, and what its parser has taken
  forward : List Buffer := []
  pulled : List Buffer := []
  -- StreamControl._asked and StreamControl._outbound at the receiver
  asked : List BlockId := []
  outbound : List Buffer := []
  -- on its way to the sender
  back : List Buffer := []
  deriving Repr, DecidableEq

-- Whose turn it is: the sender handles one more buffer, the parser takes one, the receiver's
-- side of the call sends a request, the sender's StreamControl observes one.
inductive Duplex.Turn where
  | send
  | pull
  | depart
  | arrive
  deriving Repr, DecidableEq

-- What the receiver has asked for when its parser has taken these buffers.
def Receiver.askedAfter (receiver : Receiver) (w : World) (pulled : List Buffer) : List BlockId :=
  (parseFromBuffer receiver { w with requests := pulled }).2.asked

namespace Duplex

section

variable (env : Enviroment) (receiver : Receiver) (w : World)

-- The sender's turn on one buffer, with what the peer has asked to skip by then.
def emit (skip : BlockId → Bool) (filter : Skipping) (b : Buffer) : Skipping × List Buffer :=
  if b.isFrame then ({}, [b]) else filter.step env skip b

def step (s : Duplex) : Turn → Option Duplex
  | .send =>
      match s.unsent with
      | [] => none
      | b :: rest =>
          let (filter, sent) := emit env (fun id => decide (id ∈ s.skip)) s.filter b
          some { s with unsent := rest, filter, forward := s.forward ++ sent }
  | .pull =>
      match s.forward with
      | [] => none
      | b :: rest =>
          let pulled := s.pulled ++ [b]
          let fresh := (receiver.askedAfter w pulled).filter (· ∉ s.asked)
          some { s with
            forward := rest, pulled, asked := s.asked ++ fresh
            outbound := s.outbound ++ fresh.map (skipBuffer receiver.env) }
  | .depart =>
      match s.outbound with
      | [] => none
      | b :: rest => some { s with outbound := rest, back := s.back ++ [b] }
  | .arrive =>
      match s.back with
      | [] => none
      | b :: rest => some { s with back := rest, skip := s.skip ++ (skippedBlockId env b).toList }

-- Nothing is sent yet.
def start (sender : Sender) (messages : List Outgoing) : Duplex where
  unsent := (serializeToBuffer { sender with skips := none } messages).items
  asked := w.asked

end

end Duplex

section Growth

variable {env : Enviroment} (control : Bool)

theorem ask_subset (k : Known) (id : BlockId) : k.asked ⊆ (k.ask control id).asked := by
  intro other hother
  unfold Known.ask
  repeat' split
  · exact hother
  · exact List.mem_append_left _ hother
  · exact hother

theorem drain_subset (forest : Forest) (k : Known) :
    k.asked ⊆ (k.drain control forest).asked := by
  induction forest generalizing k with
  | nil => exact List.Subset.refl _
  | chunk skip content rest ih => exact ih k
  | block id positions body rest ihBody ihRest =>
      exact List.Subset.trans (List.Subset.trans (ask_subset control k id) (ihBody _)) (ihRest _)

theorem absorb_subset (forest : Forest) (k : Known) (p : Part) :
    k.asked ⊆ askedBy (absorb env control k p forest) := by
  induction forest generalizing k p with
  | nil => exact List.Subset.refl _
  | chunk skip content rest ih => exact ih k _
  | block id positions body rest ihBody ihRest =>
      simp only [absorb]
      split
      · have hdrained := List.Subset.trans (ask_subset control k id) (drain_subset control body _)
        exact List.Subset.trans hdrained (ihRest _ _)
      · have hinside := List.Subset.trans (ask_subset control k id) (ihBody (k.ask control id) {})
        cases hinner : absorb env control (k.ask control id) {} body with
        | error failure =>
            rw [hinner] at hinside
            exact hinside
        | ok result =>
            rw [hinner] at hinside
            simp only [ok_bind]
            cases hstore : result.1.storeBlock env id result.2 with
            | error failure =>
                simp only [error_bind, askedBy, storeBlock_failed hstore]
                exact hinside
            | ok k' =>
                refine List.Subset.trans ?_ (ihRest k' _)
                rw [storeBlock_asked hstore]
                exact hinside

-- A block that is missing has its body read before anything behind it.
theorem missing_subset {k : Known} (p : Part) {id : BlockId} (positions : List Nat)
    (body rest : Forest) (h : ¬ k.registry.blockExists id = true) :
    askedBy (absorb env control k {} body) ⊆
      askedBy (absorb env control k p (.block id positions body rest)) := by
  simp only [absorb, if_neg h, ask_missing control h]
  cases hinner : absorb env control k {} body with
  | error failure => exact List.Subset.refl _
  | ok result =>
      simp only [ok_bind]
      cases hstore : result.1.storeBlock env id result.2 with
      | error failure =>
          simp only [error_bind, askedBy, storeBlock_failed hstore]
          exact List.Subset.refl _
      | ok k' =>
          refine List.Subset.trans ?_ (absorb_subset control rest k' _)
          rw [storeBlock_asked hstore]
          exact List.Subset.refl _

-- A stream asks for no less than its beginning.
theorem begins_drain {cut : Cut} {forest : Forest} (h : cut.Begins forest) (k : Known) :
    (k.drain control cut.close).asked ⊆ (k.drain control forest).asked := by
  induction cut generalizing forest k with
  | last nearer =>
      obtain ⟨more, rfl⟩ := h
      rw [drain_forest_append]
      exact drain_subset control more _
  | inside before id positions inner ih =>
      obtain ⟨body, more, rfl, hinner⟩ := h
      rw [Cut.close, drain_forest_append, drain_forest_append]
      exact List.Subset.trans (ih hinner _) (drain_subset control more _)

theorem begins_asked {cut : Cut} {forest : Forest} (h : cut.Begins forest) (k : Known) (p : Part) :
    askedBy (absorb env control k p cut.close) ⊆ askedBy (absorb env control k p forest) := by
  induction cut generalizing forest k p with
  | last nearer =>
      obtain ⟨more, rfl⟩ := h
      rw [Cut.close, absorb_append]
      cases hnearer : absorb env control k p nearer with
      | error failure => exact List.Subset.refl _
      | ok result => exact absorb_subset control more _ _
  | inside before id positions inner ih =>
      obtain ⟨body, more, rfl, hinner⟩ := h
      rw [Cut.close, absorb_append, absorb_append]
      cases hbefore : absorb env control k p before with
      | error failure => exact List.Subset.refl _
      | ok result =>
          obtain ⟨k₁, q⟩ := result
          simp only [Except.bind]
          by_cases hexists : k₁.registry.blockExists id = true
          · simp only [absorb, if_pos hexists, askedBy]
            exact List.Subset.trans (begins_drain control hinner _) (absorb_subset control more _ _)
          · rw [askedBy_missing control q positions _ hexists]
            exact List.Subset.trans (ih hinner k₁ {})
              (missing_subset control q positions body more hexists)

end Growth

-- A buffer with what the peer had asked to skip by the sender's turn on it.
abbrev Handled := Buffer × (BlockId → Bool)

-- The sender's turns one after another.
def handle (env : Enviroment) : Skipping → List Handled → Skipping × List Buffer
  | filter, [] => (filter, [])
  | filter, entry :: rest =>
      let turn := Duplex.emit env entry.2 filter entry.1
      let more := handle env turn.1 rest
      (more.1, turn.2 ++ more.2)

section Handling

variable {env : Enviroment}

theorem handle_append (filter : Skipping) (left right : List Handled) :
    handle env filter (left ++ right) = ((handle env (handle env filter left).1 right).1,
      (handle env filter left).2 ++ (handle env (handle env filter left).1 right).2) := by
  induction left generalizing filter with
  | nil => rfl
  | cons entry left ih => simp only [List.cons_append, handle, ih, List.append_assoc]

theorem emit_frame {b : Buffer} (h : b.isFrame = true) (skip : BlockId → Bool) (filter : Skipping) :
    Duplex.emit env skip filter b = ({}, [b]) := by
  rw [Duplex.emit, if_pos h]

theorem forest_frameless (forest : Forest) : ∀ b ∈ forest.stream env, b.isFrame = false :=
  forall_mem_stream (fun _ _ => rfl) (fun _ _ => rfl) forest

-- What is read from the disk goes through the loop of skip_requested_blocks.
theorem handle_filtered (entries : List Handled) (skips : Nat → BlockId → Bool) (i : Nat)
    (filter : Skipping) (hframeless : ∀ entry ∈ entries, entry.1.isFrame = false)
    (hskips : ∀ n entry, entries[n]? = some entry → skips (i + n) = entry.2) :
    handle env filter entries = (filter.after env skips i (entries.map Prod.fst),
      skipRequestedBlocks env skips i filter (entries.map Prod.fst)) := by
  induction entries generalizing i filter with
  | nil => rfl
  | cons entry rest ih =>
      have hskip : skips i = entry.2 := hskips 0 entry rfl
      have hemit : Duplex.emit env entry.2 filter entry.1 = filter.step env (skips i) entry.1 := by
        rw [Duplex.emit, hframeless entry (List.mem_cons_self ..), hskip]
        rfl
      have hrest := ih (i + 1) (filter.step env (skips i) entry.1).1
        (fun other ho => hframeless other (List.mem_cons_of_mem _ ho))
        (fun n other ho => by
          rw [← hskips (n + 1) other ho]
          congr 1
          omega)
      simp only [handle, hemit, hrest, List.map_cons, Skipping.after, skipRequestedBlocks]

-- What the peer has asked to skip by each of them.
def skipsOf (entries : List Handled) (n : Nat) : BlockId → Bool :=
  (entries[n]?.map Prod.snd).getD fun _ => false

theorem skipsOf_get (entries : List Handled) (n : Nat) (entry : Handled)
    (h : entries[n]? = some entry) : skipsOf entries (0 + n) = entry.2 := by
  rw [Nat.zero_add, skipsOf, h]
  rfl

theorem handle_framed {head : Head} {forest : Forest} {opening closing : Handled}
    {entries : List Handled} (hopening : opening.1 = { head := some head })
    (hclosing : closing.1 = separatorBuffer) (hentries : entries.map Prod.fst = forest.stream env)
    (filter : Skipping) :
    handle env filter (opening :: entries ++ [closing]) = ({}, { head := some head } ::
      skipRequestedBlocks env (skipsOf entries) 0 {} (forest.stream env) ++ [separatorBuffer]) := by
  have hframeless : ∀ entry ∈ entries, entry.1.isFrame = false := fun entry hentry =>
    forest_frameless forest entry.1 (hentries ▸ List.mem_map_of_mem hentry)
  have hopen : Duplex.emit env opening.2 filter opening.1 = ({}, [{ head := some head }]) := by
    rw [hopening]
    exact emit_frame rfl _ _
  have hclose : ∀ filter, Duplex.emit env closing.2 filter closing.1 = ({}, [separatorBuffer]) := by
    intro filter
    rw [hclosing]
    exact emit_frame rfl _ _
  have hinside := @handle_filtered env entries (skipsOf entries) 0 {} hframeless (skipsOf_get entries)
  rw [hentries] at hinside
  rw [List.cons_append, handle]
  simp only [hopen, handle_append, hinside, handle, hclose, List.append_nil, List.cons_append,
    List.nil_append]

theorem handle_single {head : Head} {content : Bytes} {entry : Handled}
    (hentry : entry.1 = singleBuffer head content) (filter : Skipping) :
    handle env filter [entry] = ({}, [singleBuffer head content]) := by
  have hemit : Duplex.emit env entry.2 filter entry.1 = ({}, [singleBuffer head content]) := by
    rw [hentry]
    exact emit_frame rfl _ _
  simp only [handle, hemit, List.append_nil]

end Handling

section Asking

variable {receiver : Receiver}

-- A receiver that has been left with these buffers, and what it then asks for.
def Asked (receiver : Receiver) (k : Known) (requests : List Buffer) (id : BlockId) : Prop :=
  ∃ v : World, v.Sound receiver.env ∧ v.known = k ∧ v.requests = requests ∧
    id ∈ (receiver.run v).2.asked

-- Nothing is skipped that the receiver does not ask for on what has been sent before.
def Timed (receiver : Receiver) (k : Known) (entries : List Handled) : Prop :=
  ∀ front entry back, entries = front ++ entry :: back → ∀ id, entry.2 id = true →
    ∃ pre, pre <+: (handle receiver.env {} front).2 ∧ Asked receiver k pre id

theorem asked_of_absorbDir {control : Bool} {env : Enviroment} {k k' : Known} {forest : Forest}
    {stored : Stored} (h : absorbDir env control k forest = .ok (k', stored)) :
    askedBy (absorb env control k {} forest) = k'.asked := by
  obtain ⟨⟨k₁, q⟩, habsorb, hfinish⟩ := bind_eq_ok.mp h
  simp only at hfinish
  split at hfinish
  · cases hfinish
  · obtain ⟨rfl, -⟩ := Prod.mk.inj (Except.ok.inj hfinish)
    rw [habsorb]
    rfl

theorem asked_nil {k : Known} {id : BlockId} (h : Asked receiver k [] id) : id ∈ k.asked := by
  obtain ⟨v, -, rfl, hrequests, hid⟩ := h
  rwa [run_nil v hrequests] at hid

theorem asked_carried (hd : receiver.env.Digests) {k : Known} {head : Head} {rest : List Buffer}
    {forest : Forest} (hcarries : Carries receiver.env false rest forest [])
    {field : Field} (hfield : receiver.allIndices.lookup head.index = some field)
    (hmode : receiver.mode head.index = false) {id : BlockId}
    (h : Asked receiver k ({ head := some head } :: rest) id) :
    id ∈ askedBy (absorb receiver.env receiver.control k {} forest) := by
  obtain ⟨v, hv, rfl, hrequests, hid⟩ := h
  rwa [(run_dir hd v hv hrequests hcarries hfield hmode).1] at hid

-- A cut of one forest that another one begins with.
theorem asked_cut (hd : receiver.env.Digests) {k : Known} {head : Head} {forest : Forest}
    (hnests : forest.Nests []) {pre : List Buffer} (hpre : pre <+: forest.stream receiver.env)
    {field : Field} (hfield : receiver.allIndices.lookup head.index = some field)
    (hmode : receiver.mode head.index = false) {id : BlockId}
    (h : Asked receiver k ({ head := some head } :: pre) id) :
    id ∈ askedBy (absorb receiver.env receiver.control k {} forest) := by
  obtain ⟨cut, hbegins, rfl⟩ := exists_begins forest hpre
  have hasked := asked_carried hd (carries_cut cut (hbegins.nests hnests)) hfield hmode h
  exact begins_asked receiver.control hbegins k {} hasked

-- What is asked for on a part of a message has been asked for when the message is read.
theorem asked_message (hd : receiver.env.Digests) {k k' : Known} {sent : Sent} {stored : Stored}
    (hnests : sent.forest.Nests [])
    (habsorb : absorbDir receiver.env receiver.control k sent.forest = .ok (k', stored))
    {field : Field} (hfield : receiver.allIndices.lookup sent.head.index = some field)
    (hmode : receiver.mode sent.head.index = false) {pre : List Buffer}
    (hpre : pre <+: sent.stream receiver.env) {id : BlockId} (h : Asked receiver k pre id) :
    id ∈ k'.asked := by
  have hall := asked_of_absorbDir habsorb
  cases sent with
  | single head content =>
      obtain ⟨rfl, -⟩ := Prod.mk.inj (Except.ok.inj habsorb)
      rcases List.prefix_cons_iff.mp hpre with rfl | ⟨behind, rfl, hbehind⟩
      · exact asked_nil h
      · obtain rfl := List.prefix_nil.mp hbehind
        obtain ⟨v, hv, rfl, hrequests, hid⟩ := h
        have hreceive := receive_dir hd (singleBuffer head content) v hv
          (hrequests ▸ Carries.single head content []) hfield hmode
        rw [Sent.forest] at habsorb
        rw [habsorb] at hreceive
        obtain ⟨path, v', hv', hknown, hmore, -⟩ := hreceive
        rw [run_cons v hv hrequests, hv'] at hid
        simp only [run_nil v' hmore] at hid
        rwa [← hknown]
  | framed head forest =>
      rcases List.prefix_cons_iff.mp hpre with rfl | ⟨behind, rfl, hbehind⟩
      · rw [← hall]
        exact absorb_subset receiver.control forest k {} (asked_nil h)
      · rw [← hall]
        rcases prefix_append_cases hbehind with hinside | ⟨last, hlast, rfl⟩
        · exact asked_cut hd hnests hinside hfield hmode h
        · rcases List.prefix_cons_iff.mp hlast with rfl | ⟨more, rfl, hmore⟩
          · rw [List.append_nil] at h
            exact asked_cut hd hnests (List.prefix_refl _) hfield hmode h
          · obtain rfl := List.prefix_nil.mp hmore
            exact asked_carried hd (carries_closed forest hnests []) hfield hmode h

theorem close_begins {env : Enviroment} (cut : Cut) : cut.stream env <+: cut.close.stream env := by
  induction cut with
  | last forest => exact List.prefix_refl _
  | inside before id positions inner ih =>
      simp only [Cut.stream, Cut.close, append_stream, Forest.stream]
      refine (List.prefix_append_right_inj _).mpr (List.cons_prefix_cons.mpr ⟨rfl, ?_⟩)
      exact ih.trans (List.prefix_append _ _)

-- The filter of a message is timely where what it looks at is.
theorem Timed.timely (hd : receiver.env.Digests) (hcontrol : receiver.control = true) {k : Known}
    {head : Head} {opening closing : Handled} {entries : List Handled} {forest : Forest}
    (h : Timed receiver k (opening :: entries ++ [closing]))
    (hopening : opening.1 = { head := some head })
    (hentries : entries.map Prod.fst = forest.stream receiver.env)
    {field : Field} (hfield : receiver.allIndices.lookup head.index = some field)
    (hmode : receiver.mode head.index = false) :
    Timely receiver.env (skipsOf entries) 0 {} [] k {} (forest.stream receiver.env) := by
  intro n hn id hskip cut hcut hsent
  rw [← hentries, List.length_map] at hn
  have hentry : entries[n]? = some (entries.get ⟨n, hn⟩) := List.getElem?_eq_getElem hn
  rw [skipsOf_get entries n _ hentry] at hskip
  have hsplit : opening :: entries ++ [closing] = (opening :: entries.take n) ++
      entries.get ⟨n, hn⟩ :: (entries.drop (n + 1) ++ [closing]) := by
    have hall : entries = entries.take n ++ entries.get ⟨n, hn⟩ :: entries.drop (n + 1) := by
      rw [List.get_eq_getElem, ← List.drop_eq_getElem_cons hn, List.take_append_drop]
    conv_lhs => rw [hall]
    simp only [List.cons_append, List.append_assoc]
  obtain ⟨pre, hpre, hasked⟩ := h _ _ _ hsplit id hskip
  have hopen : Duplex.emit receiver.env opening.2 {} opening.1 = ({}, [{ head := some head }]) := by
    rw [hopening]
    exact emit_frame rfl _ _
  have hinside := @handle_filtered receiver.env (entries.take n) (skipsOf entries) 0 {}
    (fun entry hmem => forest_frameless forest entry.1
      (hentries ▸ List.mem_map_of_mem (List.mem_of_mem_take hmem)))
    (fun m entry hm => skipsOf_get entries m entry
      (by rw [List.getElem?_take] at hm; split at hm <;> simp_all))
  rw [List.map_take, hentries] at hinside
  rw [handle] at hpre
  simp only [hopen, hinside, List.singleton_append] at hpre
  rcases List.prefix_cons_iff.mp hpre with rfl | ⟨behind, rfl, hbehind⟩
  · exact absorb_subset true cut.close k {} (asked_nil hasked)
  · have hearlier : skipRequestedBlocks receiver.env (skipsOf entries) 0 {}
          ((forest.stream receiver.env).take n) <+:
        skipRequestedBlocks receiver.env (skipsOf entries) 0 {}
          ((forest.stream receiver.env).take (n + 1)) :=
      skipRequestedBlocks_prefix _ _ _ (List.take_prefix_take_left (Nat.le_succ n))
    have hbegin := (hbehind.trans (hsent ▸ hearlier)).trans (close_begins cut)
    have h := asked_cut hd (close_nests hcut) hbegin hfield hmode hasked
    rwa [hcontrol] at h

-- One message: whatever is skipped of it in time, the receiver makes the same of it.
theorem handled_message (hd : receiver.env.Digests) (hcontrol : receiver.control = true)
    {sent : Sent} (hnests : sent.forest.Nests []) {entries : List Handled}
    (hentries : entries.map Prod.fst = sent.stream receiver.env) {k₀ k₀' k : Known}
    {stored : Stored} (habsorb : absorbDir receiver.env true k₀ sent.forest = .ok (k₀', stored))
    (hregistry : k.registry = k₀.registry) (hasks : k.Asks) {field : Field}
    (hfield : receiver.allIndices.lookup sent.head.index = some field)
    (hmode : receiver.mode sent.head.index = false) (htimed : Timed receiver k entries) :
    ∃ (pruned : Sent) (k' : Known), pruned.head = sent.head ∧ pruned.forest.Nests [] ∧
      handle receiver.env {} entries = ({}, pruned.stream receiver.env) ∧
      absorbDir receiver.env true k pruned.forest = .ok (k', stored) ∧
      k'.registry = k₀'.registry ∧ k'.Asks := by
  obtain ⟨⟨k₁, q⟩, hread, hfinish⟩ := bind_eq_ok.mp habsorb
  simp only at hfinish
  cases hstored : q.stored receiver.env k₁.registry none with
  | error e =>
      rw [hstored] at hfinish
      cases hfinish
  | ok made =>
      rw [hstored] at hfinish
      obtain ⟨rfl, rfl⟩ := Prod.mk.inj (Except.ok.inj hfinish)
      -- a forest that is read to the same part gives the same object
      have hsame : ∀ {forest : Forest} {k' : Known}, k'.registry = k₁.registry →
          absorb receiver.env true k {} forest = .ok (k', q) →
          absorbDir receiver.env true k forest = .ok (k', made) := by
        intro forest k' hk' hforest
        rw [absorbDir, hforest]
        simp only [ok_bind, hk', hstored]
      cases sent with
      | single head content =>
          obtain ⟨entry, rest, rfl, hentry, hrest⟩ := List.map_eq_cons_iff.mp hentries
          obtain rfl := List.map_eq_nil_iff.mp hrest
          obtain ⟨rfl, hq⟩ := Prod.mk.inj (Except.ok.inj hread)
          refine ⟨.single head content, k, rfl, hnests, handle_single hentry _, ?_, hregistry, hasks⟩
          exact hsame hregistry (congrArg (fun q => Except.ok (k, q)) hq)
      | framed head forest =>
          obtain ⟨opening, rest, rfl, hopening, hrest⟩ := List.map_eq_cons_iff.mp hentries
          obtain ⟨middle, last, rfl, hmiddle, hlast⟩ := List.map_eq_append_iff.mp hrest
          obtain ⟨closing, none, rfl, hclosing, hnone⟩ := List.map_eq_cons_iff.mp hlast
          obtain rfl := List.map_eq_nil_iff.mp hnone
          have htimely := htimed.timely hd hcontrol hopening hmiddle hfield hmode
          obtain ⟨pruned, k', hpruned, hstream, -, hpart, hsaved⟩ := absorb_pruned
            (skipsOf middle) hd forest [] 0 [] k₀ k₁ k {} q hnests rfl hread hregistry hasks
            (by simp) htimely
          refine ⟨.framed head pruned, k', rfl, hpruned, ?_, hsame hsaved hpart, hsaved,
            hasks.absorb true hpart⟩
          have hhandled := handle_framed hopening hclosing hmiddle {}
          rw [hstream] at hhandled
          exact hhandled

theorem stream_head (sent : Sent) (more : List Buffer) :
    ∃ b rest, sent.stream receiver.env ++ more = b :: rest ∧ b.head = some sent.head := by
  cases sent with
  | framed head forest => exact ⟨_, _, rfl, rfl⟩
  | single head content => exact ⟨_, _, rfl, rfl⟩

-- One message is received, and the rest is left.
theorem run_message (hd : receiver.env.Digests) {sent : Sent} (hnests : sent.forest.Nests [])
    {more : List Buffer} {field : Field}
    (hfield : receiver.allIndices.lookup sent.head.index = some field)
    (hmode : receiver.mode sent.head.index = false) (v : World) (hv : v.Sound receiver.env)
    (hrequests : v.requests = sent.stream receiver.env ++ more) {k' : Known} {stored : Stored}
    (habsorb : absorbDir receiver.env receiver.control v.known sent.forest = .ok (k', stored)) :
    ∃ path v', v'.Sound receiver.env ∧ v'.known = k' ∧ v'.requests = more ∧
      receiver.run v = ((Yielded.pure [.dir { dir := path, stored, type := field }]).andThen
        (receiver.run v').1, (receiver.run v').2) := by
  obtain ⟨b, rest, hb, hhead⟩ := @stream_head receiver sent more
  have hindexOf : receiver.indexOf b = sent.head.index := by
    simp only [Receiver.indexOf, hhead, Option.map_some, Option.getD_some]
  have hreceive := receive_dir hd b v hv (hrequests ▸ sent.carries hnests more)
    (hindexOf ▸ hfield) (hindexOf ▸ hmode)
  rw [habsorb] at hreceive
  obtain ⟨path, v', hv', hknown, hmore, hkeeps⟩ := hreceive
  refine ⟨path, v', hv.keeps hkeeps, hknown, hmore, ?_⟩
  rw [run_cons v hv (hrequests.trans hb), hv']
  rfl

-- Behind a message that was read, what is skipped is still in time.
theorem Timed.rest (hd : receiver.env.Digests) {k k' : Known} {pruned : Sent} {stored : Stored}
    {front back : List Handled} (h : Timed receiver k (front ++ back))
    (hhandled : handle receiver.env {} front = ({}, pruned.stream receiver.env))
    (hnests : pruned.forest.Nests [])
    (habsorb : absorbDir receiver.env receiver.control k pruned.forest = .ok (k', stored))
    (haddressed : k'.registry.ContentAddressed receiver.env) {field : Field}
    (hfield : receiver.allIndices.lookup pruned.head.index = some field)
    (hmode : receiver.mode pruned.head.index = false) : Timed receiver k' back := by
  intro more entry last hsplit id hskip
  obtain ⟨pre, hpre, hasked⟩ := h (front ++ more) entry last (by rw [hsplit, List.append_assoc])
    id hskip
  rw [handle_append, hhandled] at hpre
  rcases prefix_append_cases hpre with hinside | ⟨behind, hbehind, rfl⟩
  · have hid := asked_message hd hnests habsorb hfield hmode hinside hasked
    let v : World := { registry := k'.registry, asked := k'.asked, requests := [] }
    have hsound : v.Sound receiver.env := ⟨haddressed, fun path hpath => absurd hpath List.not_mem_nil⟩
    refine ⟨[], List.nil_prefix, v, hsound, rfl, rfl, ?_⟩
    rw [run_nil v rfl]
    exact hid
  · obtain ⟨v, hv, rfl, hrequests, hid⟩ := hasked
    obtain ⟨path, v', hsound, hknown, hmore, hrun⟩ := run_message hd hnests hfield hmode v hv
      hrequests habsorb
    rw [hrun] at hid
    exact ⟨behind, hbehind, v', hsound, hknown, hmore, hid⟩

-- All messages: skipping in time, the receiver yields and stores what it does without.
theorem handled_run (hd : receiver.env.Digests) (hcontrol : receiver.control = true)
    {sender : Registry} (hsender : sender.ContentAddressed receiver.env)
    {indexOf : Field → Option Int} {messages : List Outgoing} {sents : List Sent}
    (hsent : List.Forall₂ (Outgoing.SentAs sender indexOf) messages sents)
    (hindices : ∀ message ∈ messages, ∀ index, indexOf message.type = some index →
      receiver.allIndices.lookup index = some message.type ∧ receiver.mode index = false)
    (w₀ w : World) (hw₀ : w₀.Sound receiver.env) (hw : w.Sound receiver.env)
    (hgood : w₀.known.Good receiver.env sender) (hregistry : w.registry = w₀.registry)
    (hasks : w.known.Asks)
    (hrequests₀ : w₀.requests = sents.flatMap (Sent.stream receiver.env)) {entries : List Handled}
    (hentries : entries.map Prod.fst = sents.flatMap (Sent.stream receiver.env))
    (htimed : Timed receiver w.known entries)
    (hrequests : w.requests = (handle receiver.env {} entries).2) :
    ∃ results₀ w₀' results w', receiver.run w₀ = (.pure results₀, w₀') ∧
      receiver.run w = (.pure results, w') ∧
      results.map Result.unnamed = results₀.map Result.unnamed ∧ w'.registry = w₀'.registry := by
  induction hsent generalizing w₀ w entries with
  | nil =>
      obtain rfl := List.map_eq_nil_iff.mp hentries
      exact ⟨[], w₀, [], w, run_nil w₀ hrequests₀, run_nil w hrequests, rfl, hregistry⟩
  | @cons message sent messages sents hone hrest ih =>
      rw [List.flatMap_cons] at hrequests₀ hentries
      obtain ⟨front, back, rfl, hfront, hback⟩ := List.map_eq_append_iff.mp hentries
      obtain ⟨hfield, hmode⟩ := hindices message (List.mem_cons_self ..) _ hone.head
      have hnests := hone.framed.nests
      obtain ⟨k₀, received, habsorb, hgood', -, -, -⟩ := absorbDir_faithful true hsender hone.framed
        w₀.known hgood (w₀.registry.map Prod.fst) (fun id => Registry.blockExists_iff_mem)
      have hfrontTimed : Timed receiver w.known front := by
        intro first entry last hsplit id hskip
        exact htimed first entry (last ++ back) (by rw [hsplit, List.append_assoc]; rfl) id hskip
      obtain ⟨pruned, k, hhead, hpruned, hhandled, habsorb', hsame, hasks'⟩ := handled_message hd
        hcontrol hnests hfront habsorb hregistry hasks hfield hmode hfrontTimed
      rw [handle_append, hhandled] at hrequests
      rw [← hcontrol] at habsorb habsorb'
      have hfield' : receiver.allIndices.lookup pruned.head.index = some message.type := hhead ▸ hfield
      have hmode' : receiver.mode pruned.head.index = false := hhead ▸ hmode
      obtain ⟨path₀, v₀, hv₀, hknown₀, hmore₀, hrun₀⟩ := run_message hd hnests hfield hmode w₀ hw₀
        hrequests₀ habsorb
      obtain ⟨path, v, hv, hknown, hmore, hrun⟩ := run_message hd hpruned hfield' hmode' w hw
        hrequests habsorb'
      have haddressed : k.registry.ContentAddressed receiver.env := hsame ▸ hgood'.addressed
      have hrestTimed := htimed.rest hd hhandled hpruned habsorb' haddressed hfield' hmode'
      have hregistries : v.registry = v₀.registry := by
        have h : v.known.registry = v₀.known.registry := by rw [hknown, hknown₀, hsame]
        exact h
      obtain ⟨results₀, w₀', results, w', hruns₀, hruns, hresults, hregistry'⟩ := ih
        (fun other ho => hindices other (List.mem_cons_of_mem _ ho)) v₀ v hv₀ hv (hknown₀ ▸ hgood')
        hregistries (hknown ▸ hasks') hmore₀ hback (hknown ▸ hrestTimed) hmore
      refine ⟨_ :: results₀, w₀', _ :: results, w', by rw [hrun₀, hruns₀]; rfl,
        by rw [hrun, hruns]; rfl, ?_, hregistry'⟩
      rw [List.map_cons, List.map_cons, hresults]
      rfl

end Asking

section Sending

variable {sender : Sender}

-- What goes out of a message where its filter looks at these skip sets.
def Sent.filtered (env : Enviroment) (skips : Option (Nat → BlockId → Bool)) (sent : Sent) :
    List Buffer :=
  match skips, sent with
  | some skips, .framed head forest =>
      { head := some head } :: skipRequestedBlocks env skips 0 {} (forest.stream env) ++
        [separatorBuffer]
  | _, sent => sent.stream env

theorem Sent.filtered_none (env : Enviroment) (sent : Sent) :
    sent.filtered env none = sent.stream env := by
  cases sent <;> rfl

def filteredFrom (env : Enviroment) (skips : Option (Nat → Nat → BlockId → Bool)) :
    Nat → List Sent → List Buffer
  | _, [] => []
  | number, sent :: sents =>
      sent.filtered env (skips.map (· number)) ++ filteredFrom env skips (number + 1) sents

theorem send_filtered (hd : sender.env.Digests) (hregistry : sender.registry.Correct sender.env)
    (hdepth : sender.env.blockDepth ≤ MAX_BLOCK_NESTING) {message : Outgoing}
    (hcomplete : message.stored.Complete sender.registry) (head : Head) :
    ∃ sent : Sent, ∀ skips number, ({ sender with skips } : Sender).send number head message =
      .pure (sent.filtered sender.env (skips.map (· number))) := by
  have hfile : ∀ {stored : Stored}, stored.Complete sender.registry →
      ∃ sent : Sent, ∀ skips number,
        ({ sender with skips } : Sender).sendFile number head stored =
          .pure (sent.filtered sender.env (skips.map (· number))) := by
    intro stored hstored
    obtain ⟨forest, hread, -⟩ := readFromRegistry_framed hd hregistry hdepth hstored
    refine ⟨.framed head forest, fun skips number => ?_⟩
    simp only [Sender.sendFile, Sender.sendStored, hread]
    cases skips with
    | none => simp only [Option.map_none, Sent.filtered, Sent.stream, pure_andThen_pure,
        List.singleton_append]
    | some skips => simp only [Yielded.pure, Yielded.andThen, Option.map_some, Sent.filtered,
        List.singleton_append]
  have hsmall : ∀ message : Outgoing, ∃ sent : Sent, ∀ skips number,
      ({ sender with skips } : Sender).sendMessage number head message =
        .pure (sent.filtered sender.env (skips.map (· number))) := by
    intro message
    obtain ⟨sent, hsent⟩ := @hfile (.file message.messageToBytes) trivial
    -- neither its size nor its blocks depend on what is skipped
    obtain ⟨small, hsmall⟩ : ∃ small : Bool, ∀ skips number,
        ({ sender with skips } : Sender).sendMessage number head message =
          if small then .pure [singleBuffer head message.messageToBytes]
          else ({ sender with skips } : Sender).sendFile number head (.file message.messageToBytes) := by
      cases message with
      | message cls value =>
          exact ⟨decide ((Outgoing.message cls value).messageToBytes.length < CHUNK_SIZE) &&
            !containBlocks sender.parseBlock value, fun _ _ => rfl⟩
      | dir stored type =>
          exact ⟨decide ((Outgoing.dir stored type).messageToBytes.length < CHUNK_SIZE) && !false,
            fun _ _ => rfl⟩
      | bytes content =>
          exact ⟨decide ((Outgoing.bytes content).messageToBytes.length < CHUNK_SIZE) && !false,
            fun _ _ => rfl⟩
      | str content =>
          exact ⟨decide ((Outgoing.str content).messageToBytes.length < CHUNK_SIZE) && !false,
            fun _ _ => rfl⟩
    cases small with
    | true =>
        refine ⟨.single head message.messageToBytes, fun skips number => ?_⟩
        rw [hsmall]
        cases skips <;> rfl
    | false => exact ⟨sent, fun skips number => (hsmall skips number).trans (hsent skips number)⟩
  cases message with
  | dir stored type => exact hfile hcomplete
  | message cls value => exact hsmall _
  | bytes content => exact hsmall _
  | str content => exact hsmall _

theorem payload_filtered (hd : sender.env.Digests) (hregistry : sender.registry.Correct sender.env)
    (hdepth : sender.env.blockDepth ≤ MAX_BLOCK_NESTING) (indices : Dict Field Int)
    (messages : List Outgoing)
    (hcomplete : ∀ message ∈ messages, message.stored.Complete sender.registry)
    (hindices : ∀ message ∈ messages, ∃ index, indices.lookup message.type = some index) :
    ∃ sents : List Sent, ∀ skips number,
      ({ sender with skips } : Sender).payload indices number messages =
        .pure (filteredFrom sender.env skips number sents) := by
  induction messages with
  | nil => exact ⟨[], fun _ _ => rfl⟩
  | cons message messages ih =>
      obtain ⟨sents, hsents⟩ := ih (fun other ho => hcomplete other (List.mem_cons_of_mem _ ho))
        fun other ho => hindices other (List.mem_cons_of_mem _ ho)
      obtain ⟨index, hindex⟩ := hindices message (List.mem_cons_self ..)
      obtain ⟨sent, hsent⟩ := send_filtered hd hregistry hdepth
        (hcomplete message (List.mem_cons_self ..)) ⟨index⟩
      refine ⟨sent :: sents, fun skips number => ?_⟩
      rw [payload_cons indices number message messages hindex, hsent, hsents, pure_andThen_pure]
      rfl

theorem serialize_filtered (hd : sender.env.Digests)
    (hregistry : sender.registry.Correct sender.env)
    (hdepth : sender.env.blockDepth ≤ MAX_BLOCK_NESTING) {messages : List Outgoing}
    (hready : messages ≠ [] ∨ 1 < (Dict.set 0 .bytes sender.indices).length)
    (hcomplete : ∀ message ∈ messages, message.stored.Complete sender.registry)
    (hindices : ∀ message ∈ messages, ∃ index, sender.indexOf messages message.type = some index) :
    ∃ sents : List Sent, ∀ skips, serializeToBuffer { sender with skips } messages =
      .pure (filteredFrom sender.env skips 0 sents) := by
  obtain ⟨indices, hall⟩ := exists_indices messages hready
  obtain ⟨sents, hsents⟩ := payload_filtered hd hregistry hdepth (Sender.reversed indices) messages
    hcomplete fun message hmessage => by
      obtain ⟨index, hindex⟩ := hindices message hmessage
      rw [Sender.indexOf, hall] at hindex
      exact ⟨index, hindex⟩
  refine ⟨sents, fun skips => ?_⟩
  have hother : ({ sender with skips } : Sender).allIndices messages = .ok indices := hall
  rw [serializeToBuffer, hother]
  exact hsents skips 0

theorem filteredFrom_congr_env {env env' : Enviroment} (h : env.hashFactory = env'.hashFactory)
    (skips : Option (Nat → Nat → BlockId → Bool)) (number : Nat) (sents : List Sent) :
    filteredFrom env skips number sents = filteredFrom env' skips number sents := by
  induction sents generalizing number with
  | nil => rfl
  | cons sent sents ih =>
      have hone : ∀ skips, sent.filtered env skips = sent.filtered env' skips := by
        intro skips
        cases skips with
        | none => rw [Sent.filtered_none, Sent.filtered_none, sent_stream_congr h]
        | some skips =>
            cases sent with
            | single head content => rfl
            | framed head forest =>
                simp only [Sent.filtered, stream_congr h, skipRequestedBlocks_congr h]
      rw [filteredFrom, filteredFrom, hone, ih]

-- Later messages do not look at the skip sets of earlier ones.
theorem filteredFrom_congr {env : Enviroment} {skips skips' : Nat → Nat → BlockId → Bool}
    (sents : List Sent) (number : Nat) (h : ∀ m, number ≤ m → skips m = skips' m) :
    filteredFrom env (some skips) number sents = filteredFrom env (some skips') number sents := by
  induction sents generalizing number with
  | nil => rfl
  | cons sent sents ih =>
      simp only [filteredFrom, Option.map_some, h number (Nat.le_refl _)]
      rw [ih (number + 1) fun m hm => h m (by omega)]

theorem filteredFrom_none {env : Enviroment} (sents : List Sent) (number : Nat) :
    filteredFrom env none number sents = sents.flatMap (Sent.stream env) := by
  induction sents generalizing number with
  | nil => rfl
  | cons sent sents ih =>
      rw [filteredFrom, ih, List.flatMap_cons, Option.map_none, Sent.filtered_none]

-- The sender's turns are those of a serialize_to_buffer whose filters have looked at these sets.
theorem exists_skips {env : Enviroment} (sents : List Sent) (number : Nat) (entries : List Handled)
    (hentries : entries.map Prod.fst = sents.flatMap (Sent.stream env)) :
    ∃ skips, filteredFrom env (some skips) number sents = (handle env {} entries).2 := by
  induction sents generalizing number entries with
  | nil =>
      obtain rfl := List.map_eq_nil_iff.mp hentries
      exact ⟨fun _ _ _ => false, rfl⟩
  | cons sent sents ih =>
      rw [List.flatMap_cons] at hentries
      obtain ⟨front, back, rfl, hfront, hback⟩ := List.map_eq_append_iff.mp hentries
      obtain ⟨skips, hskips⟩ := ih (number + 1) back hback
      have hone : ∃ first : Nat → BlockId → Bool,
          handle env {} front = ({}, sent.filtered env (some first)) := by
        cases sent with
        | single head content =>
            obtain ⟨entry, rest, rfl, hentry, hrest⟩ := List.map_eq_cons_iff.mp hfront
            obtain rfl := List.map_eq_nil_iff.mp hrest
            exact ⟨fun _ _ => false, handle_single hentry _⟩
        | framed head forest =>
            obtain ⟨opening, rest, rfl, hopening, hrest⟩ := List.map_eq_cons_iff.mp hfront
            obtain ⟨middle, last, rfl, hmiddle, hlast⟩ := List.map_eq_append_iff.mp hrest
            obtain ⟨closing, none, rfl, hclosing, hnone⟩ := List.map_eq_cons_iff.mp hlast
            obtain rfl := List.map_eq_nil_iff.mp hnone
            exact ⟨skipsOf middle, handle_framed hopening hclosing hmiddle {}⟩
      obtain ⟨first, hfirst⟩ := hone
      refine ⟨fun m => if m = number then first else skips m, ?_⟩
      have hlater := @filteredFrom_congr env (fun m => if m = number then first else skips m) skips
        sents (number + 1) fun m hm => if_neg (by omega)
      simp only [filteredFrom, hlater, hskips, handle_append, hfirst, Option.map_some, if_true]

end Sending

section Linking

-- The two ends of a transfer of complete objects: one algorithm and one reading of the indices,
-- a sender that has what it sends, and a receiver that wants Dirs.
structure Link (sender : Sender) (receiver : Receiver) (messages : List Outgoing) : Prop where
  digests : sender.env.Digests
  algorithm : sender.env.hashFactory = receiver.env.hashFactory
  depth : sender.env.blockDepth ≤ MAX_BLOCK_NESTING
  registry : sender.registry.Correct sender.env
  complete : ∀ message ∈ messages, message.stored.Complete sender.registry
  ready : messages ≠ [] ∨ 1 < (Dict.set 0 .bytes sender.indices).length
  indices : ∀ message ∈ messages, ∃ index, sender.indexOf messages message.type = some index ∧
    receiver.allIndices.lookup index = some message.type
  mode : receiver.indices ≠ [] ∧ receiver.partitionsMessageMode = .inl false

variable {sender : Sender} {receiver : Receiver} {messages : List Outgoing}

theorem Link.received (h : Link sender receiver messages) : receiver.env.Digests :=
  fun content => h.algorithm ▸ h.digests content

theorem Link.contents (h : Link sender receiver messages) :
    sender.registry.ContentAddressed receiver.env := by
  intro id stored hl
  rw [← h.algorithm]
  exact h.registry.addressed id stored hl

theorem Link.isCorrect (h : Link sender receiver messages) : receiver.isCorrect = true := by
  simp [Receiver.isCorrect, h.mode.1, h.mode.2]

theorem Link.resolves (h : Link sender receiver messages) : ∀ message ∈ messages, ∀ index,
    sender.indexOf messages message.type = some index →
      receiver.allIndices.lookup index = some message.type ∧ receiver.mode index = false := by
  intro message hmessage index hindex
  obtain ⟨index', hindex', hlookup⟩ := h.indices message hmessage
  obtain rfl := Option.some.inj (hindex.symm.trans hindex')
  exact ⟨hlookup, by simp only [Receiver.mode, h.mode.2]⟩

-- What goes over it when nothing is skipped.
theorem Link.sent (h : Link sender receiver messages) : ∃ sents,
    serializeToBuffer { sender with skips := none } messages =
        .pure (sents.flatMap (Sent.stream receiver.env)) ∧
      List.Forall₂ (Outgoing.SentAs sender.registry (sender.indexOf messages)) messages sents := by
  obtain ⟨sents, hsents, hsent⟩ := @serializeToBuffer_sent { sender with skips := none } h.digests
    h.registry h.depth rfl messages h.ready h.complete
    fun message hmessage => (h.indices message hmessage).imp fun _ hindex => hindex.1
  refine ⟨sents, hsents.trans (congrArg Yielded.pure ?_), hsent⟩
  exact List.flatMap_congr fun sent _ => sent_stream_congr h.algorithm sent

end Linking

section Running

theorem emit_congr {env env' : Enviroment} (h : env.hashFactory = env'.hashFactory)
    (skip : BlockId → Bool) (filter : Skipping) (b : Buffer) :
    Duplex.emit env skip filter b = Duplex.emit env' skip filter b := by
  have hhash : getHashFromBlock env = getHashFromBlock env' := by
    have htype : env.hashType = env'.hashType := congrFun h []
    funext block
    rw [getHashFromBlock, getHashFromBlock, htype]
  simp only [Duplex.emit, Skipping.step, hhash]

theorem emit_subset (env : Enviroment) (skip : BlockId → Bool) (filter : Skipping) (b : Buffer) :
    (Duplex.emit env skip filter b).2 ⊆ [b] := by
  rw [Duplex.emit]
  split
  · exact List.Subset.refl _
  · exact step_subset env skip filter b

theorem handle_subset (env : Enviroment) (filter : Skipping) (entries : List Handled) :
    (handle env filter entries).2 ⊆ entries.map Prod.fst := by
  induction entries generalizing filter with
  | nil => exact List.Subset.refl _
  | cons entry entries ih =>
      intro b hb
      rcases List.mem_append.mp hb with hb | hb
      · exact List.mem_cons.mpr (Or.inl (List.mem_singleton.mp (emit_subset env _ filter _ hb)))
      · exact List.mem_cons_of_mem _ (ih _ hb)

theorem skippedBlockId_skipBuffer {env env' : Enviroment} (h : env.hashFactory = env'.hashFactory)
    (id : BlockId) : skippedBlockId env (skipBuffer env' id) = some id := by
  have htype : env.hashType = env'.hashType := congrFun h []
  simp [skippedBlockId, skipBuffer, getHashFromBlock, htype]

variable {receiver : Receiver} {w : World} {env : Enviroment} {source : List Buffer}

-- Which requests are where: what was asked for is what the sender has observed, what is on its
-- way and what waits, in this order.
structure Requests (receiver : Receiver) (w : World) (s : Duplex) (departed queued : List BlockId) :
    Prop where
  order : s.asked = s.skip ++ departed ++ queued
  back : s.back = departed.map (skipBuffer receiver.env)
  outbound : s.outbound = queued.map (skipBuffer receiver.env)
  once : s.asked.Nodup
  caused : ∀ id ∈ s.asked, ∃ pre, pre <+: s.pulled ∧ id ∈ receiver.askedAfter w pre

-- What has been sent is what the turns so far made of it, none of which skipped anything early.
structure Payload (receiver : Receiver) (w : World) (source : List Buffer) (s : Duplex)
    (entries : List Handled) : Prop where
  taken : entries.map Prod.fst ++ s.unsent = source
  handled : handle receiver.env {} entries = (s.filter, s.pulled ++ s.forward)
  timed : Timed receiver w.known entries

theorem Requests.pull {s : Duplex} {departed queued : List BlockId} {b : Buffer}
    (h : Requests receiver w s departed queued) (hasked : w.asked = []) :
    let fresh := (receiver.askedAfter w (s.pulled ++ [b])).filter (· ∉ s.asked)
    Requests receiver w { s with
      pulled := s.pulled ++ [b], asked := s.asked ++ fresh
      outbound := s.outbound ++ fresh.map (skipBuffer receiver.env) } departed (queued ++ fresh) := by
  intro fresh
  have hacts := @parseFromBuffer_acts receiver { w with requests := s.pulled ++ [b] }
  have hafter : (receiver.askedAfter w (s.pulled ++ [b])).Nodup :=
    hacts.asked_nodup (by simp [hasked])
  refine ⟨?_, h.back, ?_, ?_, ?_⟩
  · simp only [h.order, List.append_assoc]
  · simp only [h.outbound, List.map_append]
  · refine List.nodup_append.mpr ⟨h.once, hafter.filter _, ?_⟩
    rintro id hid other hother rfl
    exact of_decide_eq_true (List.mem_filter.mp hother).2 hid
  · intro id hid
    rcases List.mem_append.mp hid with hid | hid
    · obtain ⟨pre, hpre, hcaused⟩ := h.caused id hid
      exact ⟨pre, hpre.trans (List.prefix_append _ _), hcaused⟩
    · exact ⟨_, List.prefix_refl _, (List.mem_filter.mp hid).1⟩

theorem Payload.send {s : Duplex} {entries : List Handled} {b : Buffer} {rest : List Buffer}
    {departed queued : List BlockId} (h : Payload receiver w source s entries)
    (hrequests : Requests receiver w s departed queued) (hunsent : s.unsent = b :: rest)
    (hcorrect : receiver.isCorrect = true) (hw : ∀ requests, { w with requests }.Sound receiver.env)
    (hskip : ∀ b ∈ source, b.skip = none) :
    let turn := Duplex.emit receiver.env (fun id => decide (id ∈ s.skip)) s.filter b
    Payload receiver w source
      { s with unsent := rest, filter := turn.1, forward := s.forward ++ turn.2 }
      (entries ++ [(b, fun id => decide (id ∈ s.skip))]) := by
  intro turn
  refine ⟨?_, ?_, ?_⟩
  · rw [List.map_append, List.append_assoc, ← h.taken, hunsent]
    rfl
  · rw [handle_append, h.handled]
    simp only [handle, List.append_nil, List.append_assoc]
    rfl
  · intro front entry back hsplit id hid
    rcases List.eq_nil_or_concat back with rfl | ⟨before, last, rfl⟩
    · obtain ⟨rfl, hlast⟩ := List.append_inj' hsplit rfl
      obtain rfl := (List.cons.inj hlast).1
      -- the request has been on its way to the sender, so it was asked for on what was pulled
      have hknown : id ∈ s.asked := by
        rw [hrequests.order, List.append_assoc]
        exact List.mem_append_left _ (of_decide_eq_true hid)
      obtain ⟨pre, hpre, hcaused⟩ := hrequests.caused id hknown
      have hsent : pre <+: (handle receiver.env {} entries).2 := by
        rw [h.handled]
        exact hpre.trans (List.prefix_append _ _)
      have hplain : ∀ b ∈ pre, b.skip = none := by
        intro b hb
        have htaken := handle_subset receiver.env {} entries (hsent.subset hb)
        exact hskip b (h.taken ▸ List.mem_append_left _ htaken)
      refine ⟨pre, hsent, { w with requests := pre }, hw pre, rfl, rfl, ?_⟩
      rwa [← parseFromBuffer_run hcorrect _ hplain]
    · rw [List.concat_eq_append, ← List.cons_append, ← List.append_assoc] at hsplit
      obtain ⟨rfl, -⟩ := List.append_inj' hsplit rfl
      exact h.timed _ _ _ rfl id hid

-- What holds in every state of a call: every turn keeps it.
theorem step_keeps (hsame : env.hashFactory = receiver.env.hashFactory)
    (hcorrect : receiver.isCorrect = true) (hw : ∀ requests, { w with requests }.Sound receiver.env)
    (hasked : w.asked = []) (hskip : ∀ b ∈ source, b.skip = none) (s : Duplex)
    (turn : Duplex.Turn) (s' : Duplex)
    (hinv : ∃ entries departed queued, Payload receiver w source s entries ∧
      Requests receiver w s departed queued)
    (hstep : Duplex.step env receiver w s turn = some s') :
    ∃ entries departed queued, Payload receiver w source s' entries ∧
      Requests receiver w s' departed queued := by
  obtain ⟨entries, departed, queued, hpayload, hrequests⟩ := hinv
  cases turn with
  | send =>
      simp only [Duplex.step] at hstep
      split at hstep
      · cases hstep
      · rename_i b rest hunsent
        obtain rfl := Option.some.inj hstep
        have hsent := hpayload.send hrequests hunsent hcorrect hw hskip
        rw [emit_congr hsame]
        exact ⟨_, departed, queued, hsent, hrequests.order, hrequests.back, hrequests.outbound,
          hrequests.once, hrequests.caused⟩
  | pull =>
      simp only [Duplex.step] at hstep
      split at hstep
      · cases hstep
      · rename_i b rest hforward
        obtain rfl := Option.some.inj hstep
        have hpulled := @Requests.pull receiver w s departed queued b hrequests hasked
        refine ⟨entries, departed, _, ⟨hpayload.taken, ?_, hpayload.timed⟩, hpulled.order,
          hpulled.back, hpulled.outbound, hpulled.once, hpulled.caused⟩
        rw [hpayload.handled, hforward, List.append_assoc, List.singleton_append]
  | depart =>
      simp only [Duplex.step] at hstep
      split at hstep
      · cases hstep
      · rename_i b rest houtbound
        obtain rfl := Option.some.inj hstep
        obtain ⟨id, waiting, rfl, rfl, rfl⟩ :=
          List.map_eq_cons_iff.mp (hrequests.outbound.symm.trans houtbound)
        refine ⟨entries, departed ++ [id], waiting, ⟨hpayload.taken, hpayload.handled, hpayload.timed⟩,
          ?_, ?_, rfl, hrequests.once, hrequests.caused⟩
        · rw [hrequests.order]
          simp only [List.append_assoc, List.singleton_append]
        · rw [hrequests.back, List.map_append]
          rfl
  | arrive =>
      simp only [Duplex.step] at hstep
      split at hstep
      · cases hstep
      · rename_i b rest hback
        obtain rfl := Option.some.inj hstep
        obtain ⟨id, coming, rfl, rfl, rfl⟩ :=
          List.map_eq_cons_iff.mp (hrequests.back.symm.trans hback)
        refine ⟨entries, coming, queued, ⟨hpayload.taken, hpayload.handled, hpayload.timed⟩,
          ?_, rfl, hrequests.outbound, hrequests.once, hrequests.caused⟩
        rw [hrequests.order, skippedBlockId_skipBuffer hsame]
        simp only [Option.toList_some, List.append_assoc, List.cons_append, List.nil_append]

-- The invariant holds of every state that a call comes to.
theorem call_invariant {sender : Sender} {messages : List Outgoing} {schedule : List Duplex.Turn}
    {s : Duplex} (hsame : sender.env.hashFactory = receiver.env.hashFactory)
    (hcorrect : receiver.isCorrect = true) (hw : ∀ requests, { w with requests }.Sound receiver.env)
    (hasked : w.asked = [])
    (hrun : Interleaving.run (Duplex.step sender.env receiver w) (Duplex.start w sender messages)
      schedule = some s) :
    ∃ entries departed queued, Payload receiver w
        (serializeToBuffer { sender with skips := none } messages).items s entries ∧
      Requests receiver w s departed queued := by
  let whole := serializeToBuffer { sender with skips := none } messages
  have hskip : ∀ b ∈ whole.items, b.skip = none := serializeToBuffer_skip messages
  have hstart : Payload receiver w whole.items (Duplex.start w sender messages) [] :=
    ⟨rfl, rfl, fun front entry back h => absurd h.symm (by simp)⟩
  have hnothing : Requests receiver w (Duplex.start w sender messages) [] [] :=
    ⟨hasked, rfl, rfl, by simp [Duplex.start, hasked], by simp [Duplex.start, hasked]⟩
  exact invariant_run_all
    (@step_keeps receiver w sender.env whole.items hsame hcorrect hw hasked hskip) schedule
    ⟨[], [], [], hstart, hnothing⟩ hrun

-- A call that has come to its end has left the receiver with what the whole stream does.
theorem call_completes {sender : Sender} {messages : List Outgoing}
    (h : Link sender receiver messages) {s : Duplex} (hcontrol : receiver.control = true)
    (hw : ∀ requests, { w with requests }.Sound receiver.env)
    (hagrees : sender.registry.Agrees w.registry) (hasked : w.asked = [])
    {entries : List Handled} (hpayload : Payload receiver w
      (serializeToBuffer { sender with skips := none } messages).items s entries)
    (hunsent : s.unsent = []) (hforward : s.forward = []) :
    let whole := serializeToBuffer { sender with skips := none } messages
    (∃ skips, serializeToBuffer { sender with skips := some skips } messages = .pure s.pulled) ∧
      ∃ results₀ w₀' results w',
        parseFromBuffer receiver { w with requests := whole.items } = (.pure results₀, w₀') ∧
        parseFromBuffer receiver { w with requests := s.pulled } = (.pure results, w') ∧
        results.map Result.unnamed = results₀.map Result.unnamed ∧ w'.registry = w₀'.registry := by
  intro whole
  have hskip : ∀ b ∈ whole.items, b.skip = none := serializeToBuffer_skip messages
  obtain ⟨sents, hsents, hsent⟩ := h.sent
  have hitems : whole.items = sents.flatMap (Sent.stream receiver.env) :=
    congrArg Yielded.items hsents
  have htaken : entries.map Prod.fst = whole.items := by
    rw [← hpayload.taken, hunsent, List.append_nil]
  have hpulled : s.pulled = (handle receiver.env {} entries).2 := by
    rw [hpayload.handled, hforward, List.append_nil]
  obtain ⟨results₀, w₀', results, w', hrun₀, hrun, hresults, hregistry⟩ := handled_run h.received
    hcontrol h.contents hsent h.resolves { w with requests := whole.items }
    { w with requests := s.pulled } (hw _) (hw _) ⟨(hw []).addressed, hagrees⟩ rfl
    (fun id hid => by simp [World.known, hasked] at hid) hitems (htaken.trans hitems)
    hpayload.timed hpulled
  have hplain : ∀ b ∈ s.pulled, b.skip = none := fun b hb => hskip b
    (htaken ▸ handle_subset receiver.env {} entries (hpulled ▸ hb))
  refine ⟨?_, results₀, w₀', results, w', (parseFromBuffer_run h.isCorrect _ hskip).trans hrun₀,
    (parseFromBuffer_run h.isCorrect _ hplain).trans hrun, hresults, hregistry⟩
  obtain ⟨plain, hplain⟩ := serialize_filtered h.digests h.registry h.depth h.ready h.complete
    fun message hmessage => (h.indices message hmessage).imp fun _ hindex => hindex.1
  have hwhole : whole.items = plain.flatMap (Sent.stream receiver.env) := by
    rw [show whole = _ from hplain none, filteredFrom_congr_env h.algorithm, filteredFrom_none]
    rfl
  obtain ⟨skips, hskips⟩ := exists_skips plain 0 entries (htaken.trans hwhole)
  refine ⟨skips, ?_⟩
  rw [hplain (some skips), filteredFrom_congr_env h.algorithm, hskips, hpulled]

-- Skipping over a call, in whatever order the two parties take their turns. What the receiver
-- has asked for is what the sender has observed, what is on its way and what waits to go out,
-- in this order and each id once, and the receiver held every block that it asked for. When
-- everything is sent and read, the stream was one that serialize_to_buffer yields with some skip
-- sets, and the receiver has yielded and stored what it does over the whole stream.
theorem duplex_transfers (sender : Sender) (receiver : Receiver) (messages : List Outgoing)
    (w : World) (schedule : List Duplex.Turn) (s : Duplex) (h : Link sender receiver messages)
    (hcontrol : receiver.control = true) (hreceiver : w.registry.ContentAddressed receiver.env)
    (hagrees : sender.registry.Agrees w.registry) (hscratch : w.scratch = []) (hasked : w.asked = [])
    (hrun : Interleaving.run (Duplex.step sender.env receiver w) (Duplex.start w sender messages)
      schedule = some s) :
    let whole := serializeToBuffer { sender with skips := none } messages
    let outcome := parseFromBuffer receiver { w with requests := whole.items }
    let outcome' := parseFromBuffer receiver { w with requests := s.pulled }
    s.asked = s.skip ++ (s.back ++ s.outbound).filterMap (skippedBlockId sender.env) ∧
      s.asked.Nodup ∧
      (∀ id ∈ s.asked, ∃ pre, pre <+: s.pulled ∧
        (parseFromBuffer receiver { w with requests := pre }).2.registry.blockExists id = true) ∧
      (s.unsent = [] → s.forward = [] →
        (∃ skips, serializeToBuffer { sender with skips := some skips } messages =
          .pure s.pulled) ∧
        whole.raised = none ∧ outcome.1.raised = none ∧ outcome'.1.raised = none ∧
        outcome'.1.items.map Result.unnamed = outcome.1.items.map Result.unnamed ∧
        outcome'.2.registry = outcome.2.registry) := by
  intro whole outcome outcome'
  have hsound : ∀ requests, { w with requests }.Sound receiver.env := fun requests =>
    ⟨hreceiver, fun path hpath => by simp [hscratch] at hpath⟩
  obtain ⟨entries, departed, queued, hpayload, hrequests⟩ :=
    call_invariant h.algorithm h.isCorrect hsound hasked hrun
  refine ⟨?_, hrequests.once, ?_, ?_⟩
  · have hids : ∀ ids : List BlockId,
        (ids.map (skipBuffer receiver.env)).filterMap (skippedBlockId sender.env) = ids := by
      intro ids
      induction ids with
      | nil => rfl
      | cons id ids ih =>
          rw [List.map_cons, List.filterMap_cons, skippedBlockId_skipBuffer h.algorithm, ih]
    rw [hrequests.order, hrequests.back, hrequests.outbound, List.filterMap_append, hids, hids,
      List.append_assoc]
  · intro id hid
    obtain ⟨pre, hpre, hcaused⟩ := hrequests.caused id hid
    refine ⟨pre, hpre, ?_⟩
    rcases (@parseFromBuffer_acts receiver { w with requests := pre }).asked_held id hcaused
      with hold | ⟨-, hheld⟩
    · rw [show ({ w with requests := pre } : World).asked = [] from hasked] at hold
      exact absurd hold List.not_mem_nil
    · exact hheld
  · intro hunsent hforward
    obtain ⟨hstream, results₀, w₀', results, w', houtcome, houtcome', hresults, hregistry⟩ :=
      call_completes h hcontrol hsound hagrees hasked hpayload hunsent hforward
    obtain ⟨sents, hsents, -⟩ := h.sent
    refine ⟨hstream, by rw [show whole = _ from hsents]; rfl, ?_, ?_, ?_, ?_⟩
    · rw [show outcome = _ from houtcome]
      rfl
    · rw [show outcome' = _ from houtcome']
      rfl
    · rw [show outcome = _ from houtcome, show outcome' = _ from houtcome']
      exact hresults
    · rw [show outcome = _ from houtcome, show outcome' = _ from houtcome']
      exact hregistry

-- The request to skip the outer block comes when its first chunk is under way.
def Duplex.late : List Duplex.Turn :=
  [.send, .send, .send, .pull, .pull, .pull, .depart, .send, .arrive, .send, .send, .send, .send,
    .send, .pull, .pull, .pull, .pull, .pull]

theorem duplex_transfers_sample :
    let sender : Sender := .sample
    let receiver : Receiver := { Receiver.sample with control := true }
    let messages := [Outgoing.dir (.dir .around) (.message 7)]
    let w : World := { registry := .sample, requests := [] }
    let s := (Interleaving.run (Duplex.step sender.env receiver w)
      (Duplex.start w sender messages) Duplex.late).getD { unsent := [] }
    let whole := serializeToBuffer { sender with skips := none } messages
    let outcome := parseFromBuffer receiver { w with requests := whole.items }
    let outcome' := parseFromBuffer receiver { w with requests := s.pulled }
    s.asked = s.skip ++ (s.back ++ s.outbound).filterMap (skippedBlockId sender.env) ∧
      s.asked.Nodup ∧
      (∀ id ∈ s.asked, ∃ pre, pre <+: s.pulled ∧
        (parseFromBuffer receiver { w with requests := pre }).2.registry.blockExists id = true) ∧
      (s.unsent = [] → s.forward = [] →
        (∃ skips, serializeToBuffer { sender with skips := some skips } messages =
          .pure s.pulled) ∧
        whole.raised = none ∧ outcome.1.raised = none ∧ outcome'.1.raised = none ∧
        outcome'.1.items.map Result.unnamed = outcome.1.items.map Result.unnamed ∧
        outcome'.2.registry = outcome.2.registry) :=
  duplex_transfers .sample { Receiver.sample with control := true } _
    { registry := .sample, requests := [] } Duplex.late _
    { digests := fun _ => List.cons_ne_nil _ _
      algorithm := rfl
      depth := by decide
      registry := sample_correct
      complete := fun message h => by rw [List.mem_singleton.mp h]; exact around_complete
      ready := .inl (List.cons_ne_nil _ _)
      indices := fun message h => by rw [List.mem_singleton.mp h]; exact ⟨1, by decide, by decide⟩
      mode := ⟨List.cons_ne_nil _ _, rfl⟩ }
    rfl Registry.sample_contentAddressed
    (fun id x y hx hy => Option.some.inj (hx.symm.trans hy)) rfl rfl (by decide +kernel)

end Running

end BeeRpc
