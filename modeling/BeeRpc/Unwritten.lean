import BeeRpc.Intake

namespace BeeRpc

open Wire Effect

-- None of the marker's hashes says that it is one of ours.
def Buffer.Unresolvable (env : Enviroment) (b : Buffer) : Prop :=
  ∃ block, b.block = some block ∧ ∀ hash ∈ block.hashes, hash.type ≠ env.hashType

-- What the writers do not get past, with the traffic in front of it: something that is refused in
-- the traffic, the marker where it comes to be read, or what parser_iterator raises.
def Traffic.Stops (env : Enviroment) (outside : Bool) (registry : Registry) (traffic : Traffic)
    (more : List Event) (raised : Option Err) : Prop :=
  traffic.Rejects env outside registry none ∨
    (∃ bad rest, bad.Unresolvable env ∧ more = bad.arrival ++ .buffer bad :: rest ∧
      traffic.Unheld env registry) ∨
    ∃ b e, more = Buffer.arrival b ∧ raised = some e

section Front

variable {env : Enviroment} (control : Bool)

theorem Buffer.Unresolvable.blockHash {bad : Buffer} (h : bad.Unresolvable env) :
    bad.blockHash env = none := by
  obtain ⟨block, hblock, hall⟩ := h
  rw [Buffer.blockHash, hblock, Option.bind_some, getHashFromBlock, Option.map_eq_none_iff]
  apply List.find?_eq_none.mpr
  intro hash hmem
  simpa using hall hash hmem

theorem Buffer.Unresolvable.isSome {bad : Buffer} (h : bad.Unresolvable env) :
    bad.block.isSome = true := by
  obtain ⟨block, hblock, -⟩ := h
  rw [hblock]
  rfl

theorem Buffer.Unresolvable.truthy {bad : Buffer} (h : bad.Unresolvable env) :
    truthy (bad.blockHash env) = none := by
  rw [h.blockHash]
  rfl

-- stop_generator passes it on.
theorem stopGenerator_stops {inner : Traffic} {id : BlockId} (havoids : Avoids env id inner.events)
    {registry : Registry} {more : List Event} {raised : Option Err}
    (hstops : inner.Stops env false registry more raised) :
    ∃ more' raised', (stopGenerator env ⟨inner.events ++ more, raised⟩ id).1 =
        ⟨inner.events ++ more', raised'⟩ ∧ inner.Stops env false registry more' raised' := by
  simp only [stopGenerator, stopItems_append havoids]
  rcases hstops with hrejects | ⟨bad, rest, hbad, rfl, hunheld⟩ | ⟨b, e, rfl, rfl⟩
  · rcases hstop : stopItems env id more with ⟨items, _ | after⟩
    · exact ⟨items, raised, rfl, Or.inl hrejects⟩
    · exact ⟨items, none, rfl, Or.inl hrejects⟩
  · have hne : bad.blockHash env ≠ some id := by
      rw [hbad.blockHash]
      exact (Option.some_ne_none id).symm
    rw [stopItems_append (arrival_avoids id bad), stopItems, if_neg hne]
    rcases hstop : stopItems env id rest with ⟨items, _ | after⟩
    · exact ⟨_, raised, rfl, Or.inr (Or.inl ⟨bad, items, hbad, rfl, hunheld⟩)⟩
    · exact ⟨_, none, rfl, Or.inr (Or.inl ⟨bad, items, hbad, rfl, hunheld⟩)⟩
  · have hstop := stopItems_append (@arrival_avoids env id b) []
    rw [List.append_nil] at hstop
    rw [hstop, stopItems, List.append_nil]
    exact ⟨b.arrival, some e, rfl, Or.inr (Or.inr ⟨b, e, rfl, rfl⟩)⟩

-- With a block open, and this to come in it, something is raised.
theorem saveChunksToBlock_stops {opening : Buffer} {id : BlockId}
    (hopening : truthy (opening.blockHash env) = some id) {inner : Traffic}
    (havoids : Avoids env id inner.events) (outside : Bool) {more : List Event}
    {raised : Option Err} {w : World} {registry : Registry} (hregistry : w.registry = registry)
    (hstops : (Traffic.inside id opening inner).Stops env outside registry more raised)
    (hinner : ∀ more raised, inner.Stops env false registry more raised → ∀ n p hashers,
      hashers ≠ [] → ∀ w, w.registry = registry → ∀ ok,
        Saved control env n raised (inner.events ++ more) p hashers w ok)
    (n : Nat) (json : List JsonEntry) (hashers : List Bytes) (ok : Reading → World → Prop) :
    Ends (saveChunksToBlock env control n opening ⟨⟨inner.events ++ more, raised⟩, json, hashers⟩) w
      ok fun _ _ => True := by
  subst hregistry
  by_cases htarget : opening.target env = none
  · exact saveChunksToBlock_unresolvable control htarget n _ w
  cases n with
  | zero => exact trivial
  | succ n =>
      have hmarker := target_eq hopening htarget
      rw [Buffer.target] at hmarker
      simp only [saveChunksToBlock, hmarker, ends_bind, ends_get]
      by_cases hexists : w.registry.blockExists id = true
      · rw [if_pos hexists]
        have hheld : w.registry.blockExists id ≠ false := by
          rw [hexists]
          exact Bool.noConfusion
        rcases hstops with (h | h) | ⟨bad, rest, hbad, rfl, hunheld⟩ | ⟨b, e, rfl, rfl⟩
        · exact absurd h htarget
        · exact absurd h.1 hheld
        · exact absurd hunheld.1 hheld
        · have hdrain := drain_append control (avoids_append havoids (@arrival_avoids env id b)) (some e)
            [] w
          rw [List.append_nil] at hdrain
          exact ends_bind.mpr (ends_of_error hdrain trivial)
      · rw [if_neg hexists]
        rw [Bool.not_eq_true] at hexists
        have hstops' : inner.Stops env false w.registry more raised := by
          rcases hstops with (h | h) | ⟨bad, rest, hbad, hmore, hunheld⟩ | h
          · exact absurd h htarget
          · exact Or.inl h.2
          · exact Or.inr (Or.inl ⟨bad, rest, hbad, hmore, hunheld.2⟩)
          · exact Or.inr (Or.inr h)
        obtain ⟨more', raised', hinside, hstops'⟩ := stopGenerator_stops havoids hstops'
        have hsaved := @saveBlockContent_takes env control n opening id
          (stopGenerator env ⟨inner.events ++ more, raised⟩ id).1 hashers w (fun _ _ => False)
        refine (hsaved fun w' hregistry _ => ?_).bind fun fed w' h => ?_
        · rw [hinside]
          exact hinner more' raised' hstops' n _ _ (by simp) w' hregistry _
        · obtain ⟨_, _, hfalse, -⟩ := h
          exact hfalse.elim

-- So it is when that comes behind anything that the parts of a block are read through.
theorem saved_traffic (traffic : Traffic) (hflows : traffic.Flows env) {registry : Registry}
    {more : List Event} {raised : Option Err}
    (hstops : traffic.Stops env false registry more raised) (n : Nat) (p : Part)
    {hashers : List Bytes} (hhashers : hashers ≠ []) {w : World} (hregistry : w.registry = registry)
    (ok : World → Part → Prop) :
    Saved control env n raised (traffic.events ++ more) p hashers w ok := by
  induction traffic generalizing registry more raised n p hashers w ok with
  | nil =>
      rcases hstops with h | ⟨bad, rest, hbad, rfl, -⟩ | ⟨b, e, rfl, rfl⟩
      · exact h.elim
      · apply saved_arrival
        intro w' _
        exact saved_unresolvable control (target_none hbad.truthy) hbad.isSome rest _ _ w' ok
      · rw [Traffic.events, List.nil_append, ← List.append_nil b.arrival]
        apply saved_arrival
        intro w' _
        exact saved_raises control _ _ w' ok
  | event event rest ih =>
      apply saved_event control hflows.1
      exact ih hflows.2 hstops n p hhashers ((after_registry ..).trans hregistry) ok
  | pass b rest ih =>
      apply saved_pass control hflows.1
      intro hpass
      refine ih hflows.2 ?_ n _ hhashers hregistry ok
      rcases hstops with (h | h) | h | h
      · exact absurd h hpass
      · exact Or.inl h
      · exact Or.inr (Or.inl h)
      · exact Or.inr (Or.inr h)
  | block id opening body closing rest _ ih =>
      obtain ⟨hopening, hclosing, havoids, hbody, hrest⟩ := hflows
      simp only [Traffic.events, List.cons_append, List.append_assoc]
      apply saved_block control (blockHash_isSome hopening)
      have hread := saveChunksToBlock_takes control false hopening havoids
        (.marked raised (rest.events ++ more) hclosing) n (allJson_ne_nil p) _
        (fun _ => feed_ne_nil p.content hhashers) hregistry (absorbs_traffic control body hbody)
      refine hread.mono (fun reading w' h => ?_) fun _ _ h => h
      obtain ⟨rfl, htarget, htakes⟩ := h
      refine ⟨id, opening.positions, _, rfl, rfl, ?_⟩
      refine ih hrest ?_ n _ hhashers htakes.holds ok
      rcases hstops with (h | h | h) | h | h
      · exact absurd h htarget
      · exact absurd h htakes.succeeds
      · exact Or.inl h
      · exact Or.inr (Or.inl h)
      · exact Or.inr (Or.inr h)
  | inside id opening inner ih =>
      obtain ⟨hopening, havoids, hinner⟩ := hflows
      simp only [Traffic.events, List.cons_append]
      apply saved_block control (blockHash_isSome hopening)
      apply saveChunksToBlock_stops control hopening havoids false hregistry hstops
      intro more raised hstops n p hashers hhashers w hw ok
      exact ih hinner hstops n p hhashers hw ok

end Front

namespace Traffic

-- save_to_dir goes on to the next part behind it: the part at hand ends with the block at its end.
-- That one may lack its last marker where parser_iterator has ended behind it.
def Leads (ended : Prop) : Traffic → Prop
  | nil => False
  | event _ rest => rest.Leads ended
  | pass _ rest => rest.Leads ended
  | block _ _ _ _ rest => rest = nil
  | inside _ _ _ => ended

-- The part at hand goes on behind it.
def Within : Traffic → Prop
  | nil => True
  | event _ rest => rest.Within
  | pass _ rest => rest.Within
  | block _ _ _ _ _ => False
  | inside _ _ _ => True

-- There are no blocks in it.
def Plain : Traffic → Prop
  | nil => True
  | event _ rest => rest.Plain
  | pass _ rest => rest.Plain
  | block _ _ _ _ _ => False
  | inside _ _ _ => False

-- The part at hand goes on behind it, or ends in it.
theorem within_or_leads {env : Enviroment} (traffic : Traffic) (hflows : traffic.Flows env) :
    traffic.Within ∨ ∃ (first : Traffic) (rest : List Event), traffic.events = first.events ++ rest ∧
      first.Flows env ∧ first.events ≠ [] ∧ ∀ ended, first.Leads ended := by
  induction traffic with
  | nil => exact Or.inl trivial
  | event event rest ih =>
      refine (ih hflows.2).imp id ?_
      rintro ⟨first, more, hevents, hfirst, -, hleads⟩
      exact ⟨.event event first, more, by rw [events, hevents]; rfl, ⟨hflows.1, hfirst⟩,
        List.cons_ne_nil _ _, hleads⟩
  | pass b rest ih =>
      refine (ih hflows.2).imp id ?_
      rintro ⟨first, more, hevents, hfirst, -, hleads⟩
      exact ⟨.pass b first, more, by rw [events, hevents]; rfl, ⟨hflows.1, hfirst⟩,
        List.cons_ne_nil _ _, hleads⟩
  | block id opening body closing rest =>
      obtain ⟨hopening, hclosing, havoids, hbody, -⟩ := hflows
      exact Or.inr ⟨.block id opening body closing .nil, rest.events, by simp [events],
        ⟨hopening, hclosing, havoids, hbody, trivial⟩, List.cons_ne_nil _ _, fun _ => rfl⟩
  | inside id opening inner => exact Or.inl trivial

theorem Within.plain_or_leads {traffic : Traffic} (h : traffic.Within) :
    traffic.Plain ∨ ∀ ended : Prop, ended → traffic.Leads ended := by
  induction traffic with
  | nil => exact Or.inl trivial
  | event event rest ih => exact ih h
  | pass b rest ih => exact ih h
  | block id opening body closing rest => exact h.elim
  | inside id opening inner => exact Or.inr fun _ hended => hended

end Traffic

section Directory

variable {receiver : Receiver}

-- The loop of save_to_dir.
def nextDirPart (receiver : Receiver) (fuel : Nat) (p : Part) (file : SavedFile) :
    Save (List (Nat × Bytes) × List JsonEntry) :=
  let parts := p.parts ++ [(p.index, file.content)]
  if file.ended then return (parts, file.reading.json)
  else receiver.saveDirParts fuel (p.index + 1) parts file.reading.json

-- What stands in the directory is not what its metadata can be made of.
def Misfits (env : Enviroment) (result : List (Nat × Bytes) × List JsonEntry) (w : World) : Prop :=
  ∃ q : Part, result = (q.allParts, q.allJson) ∧ ∃ e, q.stored env w.registry none = .error e

-- With these events left of the part at hand something is raised, at the end at the latest.
def Unwritten (receiver : Receiver) (n : Nat) (raised : Option Err) (items : List Event) (p : Part)
    (w : World) : Prop :=
  ∀ fuel, Ends (saveChunks receiver.control (saveChunksToBlock receiver.env receiver.control n)
    p.allJson raised p.current [] items >>= nextDirPart receiver fuel p) w (Misfits receiver.env)
      fun _ _ => True

-- The same where a parser_iterator begins with what is left of the requests.
def DirUnwritten (receiver : Receiver) (p : Part) (w : World) : Prop :=
  ∀ n, Unwritten receiver n (parserIterator receiver.env [] [] w.requests).raised
    (parserIterator receiver.env [] [] w.requests).items p w

theorem saveDirParts_unwritten {p : Part} {w : World} (h : DirUnwritten receiver p w)
    (hcurrent : p.current = []) (fuel : Nat) :
    Ends (receiver.saveDirParts fuel p.index p.parts p.json) w (Misfits receiver.env)
      fun _ _ => True := by
  cases fuel with
  | zero => exact trivial
  | succ fuel =>
      simp only [Receiver.saveDirParts, ends_bind, ends_get]
      have hpart := h ((parserIterator receiver.env [] [] w.requests).items.length + 1) fuel
      rw [hcurrent] at hpart
      exact ends_bind.mp hpart

theorem unwritten_event {event : Event} (hevent : ∀ b, event ≠ .buffer b) {n : Nat}
    {raised : Option Err} {rest : List Event} {p : Part} {w : World}
    (h : Unwritten receiver n raised rest p (w.after receiver.control event)) :
    Unwritten receiver n raised (event :: rest) p w := by
  intro fuel
  cases event with
  | buffer b => exact absurd rfl (hevent b)
  | _ => exact h fuel

theorem unwritten_arrival (b : Buffer) {n : Nat} {raised : Option Err} {rest : List Event} {p : Part}
    {w : World} (h : ∀ w', w'.registry = w.registry → Unwritten receiver n raised rest p w') :
    Unwritten receiver n raised (b.arrival ++ rest) p w := by
  unfold Buffer.arrival
  by_cases hsignal : b.isSignal = true
  · rw [if_pos hsignal]
    apply unwritten_event (fun _ => Event.noConfusion)
    apply unwritten_event (fun _ => Event.noConfusion)
    exact h _ rfl
  · rw [if_neg hsignal]
    apply unwritten_event (fun _ => Event.noConfusion)
    exact h _ rfl

-- A block leads to the next part, which is read with an iterator of its own.
theorem unwritten_block {b : Buffer} (hblock : b.block.isSome = true) {n : Nat} {raised : Option Err}
    {rest : List Event} {p : Part} {w : World}
    (h : Ends (saveChunksToBlock receiver.env receiver.control n b
      ⟨⟨rest, raised⟩, p.allJson, []⟩) w (fun reading w' => ∃ id positions content,
        reading.json = p.allJson ++ [.block id positions] ∧
          DirUnwritten receiver (p.block id positions content) w') fun _ _ => True) :
    Unwritten receiver n raised (.buffer b :: rest) p w := by
  intro fuel
  simp only [saveChunks, hblock, if_true, ends_bind, ends_pure]
  refine h.mono (fun reading w' h => ?_) fun _ _ h => h
  obtain ⟨id, positions, content, hjson, hnext⟩ := h
  have hparts := saveDirParts_unwritten hnext rfl fuel
  have hjson' : (p.block id positions content).json = reading.json := by
    rw [hjson]
    simp only [Part.block, Part.allJson, List.append_assoc, List.singleton_append]
  rw [hjson'] at hparts
  exact hparts

theorem unwritten_unresolvable {b : Buffer} (hb : b.target receiver.env = none)
    (hblock : b.block.isSome = true) (n : Nat) (raised : Option Err) (rest : List Event) (p : Part)
    (w : World) : Unwritten receiver n raised (.buffer b :: rest) p w :=
  unwritten_block hblock (saveChunksToBlock_unresolvable receiver.control hb n _ w)

theorem unwritten_pass {b : Buffer} (hb : truthy (b.blockHash receiver.env) = none) {n : Nat}
    {raised : Option Err} {rest : List Event} {p : Part} {w : World}
    (h : ¬ b.block.isSome = true → Unwritten receiver n raised rest (p.chunk b.content) w) :
    Unwritten receiver n raised (.buffer b :: rest) p w := by
  by_cases hblock : b.block.isSome = true
  · exact unwritten_unresolvable (target_none hb) hblock n raised rest p w
  · intro fuel
    have hrest := h hblock fuel
    rw [saveChunks, if_neg hblock]
    exact hrest

-- One part of the directory is read up to the next, or something in it raises.
theorem unwritten_leads (traffic : Traffic) (hflows : traffic.Flows receiver.env) {ended : Prop}
    (hleads : traffic.Leads ended) {n : Nat} {raised : Option Err} {more : List Event}
    (hended : ended → raised = none ∧ more = []) {registry : Registry} {p : Part} {w : World}
    (hregistry : w.registry = registry)
    (h : ¬ traffic.Rejects receiver.env true registry (some []) → ∀ w',
      w'.registry = (traffic.reads receiver.env registry p []).1 →
      w'.requests = w.requests.drop (traffic.events.count .pull) →
        DirUnwritten receiver (traffic.reads receiver.env registry p []).2 w') :
    Unwritten receiver n raised (traffic.events ++ more) p w := by
  induction traffic generalizing p w with
  | nil => exact hleads.elim
  | event event rest ih =>
      apply unwritten_event hflows.1
      apply ih hflows.2 hleads ((after_registry ..).trans hregistry)
      intro haccepts w' hregistry' hrequests
      apply h haccepts w' hregistry'
      rw [hrequests, after_requests, List.drop_drop, ← List.count_append]
      rfl
  | pass b rest ih =>
      apply unwritten_pass hflows.1
      intro hpass
      apply ih hflows.2 hleads hregistry
      intro haccepts w' hregistry' hrequests
      refine h ?_ w' hregistry' ?_
      · rintro (h | h)
        · exact hpass h
        · exact haccepts h
      · rw [hrequests, Traffic.events, List.count_cons_of_ne (by simp)]
  | block id opening body closing rest =>
      obtain ⟨hopening, hclosing, havoids, hbody, -⟩ := hflows
      obtain rfl : rest = .nil := hleads
      simp only [Traffic.events, List.cons_append, List.append_assoc, List.nil_append]
      apply unwritten_block (blockHash_isSome hopening)
      have hread := saveChunksToBlock_takes receiver.control true hopening havoids
        (.marked raised more hclosing) n (allJson_ne_nil p) [] (fun h => Bool.noConfusion h)
        hregistry (absorbs_traffic receiver.control body hbody)
      refine hread.mono (fun reading w' h' => ?_) fun _ _ h => h
      obtain ⟨rfl, htarget, htakes⟩ := h'
      let inner := body.reads receiver.env registry { current := opening.content } closing.content
      refine ⟨id, opening.positions, (taken receiver.env registry id opening inner).2, rfl, ?_⟩
      refine h ?_ w' htakes.holds ?_
      · rintro (h | h | h)
        · exact htarget h
        · exact htakes.succeeds h
        · exact h
      · rw [htakes.leaves, Traffic.events, List.count_cons_of_ne (by simp), List.count_append,
          List.count_cons_of_ne (by simp)]
        rfl
  | inside id opening inner =>
      obtain ⟨hopening, havoids, hinner⟩ := hflows
      obtain ⟨rfl, rfl⟩ := hended hleads
      simp only [Traffic.events, List.cons_append]
      apply unwritten_block (blockHash_isSome hopening)
      have hread := saveChunksToBlock_takes receiver.control true hopening havoids
        (.quiet .nil) n (allJson_ne_nil p) [] (fun h => Bool.noConfusion h)
        hregistry (absorbs_traffic receiver.control inner hinner)
      refine hread.mono (fun reading w' h' => ?_) fun _ _ h => h
      obtain ⟨rfl, htarget, htakes⟩ := h'
      let read := inner.reads receiver.env registry { current := opening.content } []
      refine ⟨id, opening.positions, (taken receiver.env registry id opening read).2, rfl, ?_⟩
      refine h ?_ w' htakes.holds ?_
      · rintro (h | h)
        · exact htarget h
        · exact htakes.succeeds h
      · rw [htakes.leaves, Traffic.events, List.count_cons_of_ne (by simp)]

-- A part is not read past what stops it.
theorem unwritten_within (traffic : Traffic) (hflows : traffic.Flows receiver.env)
    (hwithin : traffic.Within) {n : Nat} {raised : Option Err} {more : List Event}
    {registry : Registry} (hstops : traffic.Stops receiver.env true registry more raised) {p : Part}
    {w : World} (hregistry : w.registry = registry) :
    Unwritten receiver n raised (traffic.events ++ more) p w := by
  induction traffic generalizing p w with
  | nil =>
      rcases hstops with h | ⟨bad, rest, hbad, rfl, -⟩ | ⟨b, e, rfl, rfl⟩
      · exact h.elim
      · apply unwritten_arrival
        intro w' _
        exact unwritten_unresolvable (target_none hbad.truthy) hbad.isSome n _ rest p w'
      · rw [Traffic.events, List.nil_append, ← List.append_nil b.arrival]
        apply unwritten_arrival
        intro w' _ fuel
        exact trivial
  | event event rest ih =>
      apply unwritten_event hflows.1
      exact ih hflows.2 hwithin hstops ((after_registry ..).trans hregistry)
  | pass b rest ih =>
      apply unwritten_pass hflows.1
      intro hpass
      refine ih hflows.2 hwithin ?_ hregistry
      rcases hstops with (h | h) | h | h
      · exact absurd h hpass
      · exact Or.inl h
      · exact Or.inr (Or.inl h)
      · exact Or.inr (Or.inr h)
  | block id opening body closing rest => exact hwithin.elim
  | inside id opening inner =>
      obtain ⟨hopening, havoids, hinner⟩ := hflows
      simp only [Traffic.events, List.cons_append]
      apply unwritten_block (blockHash_isSome hopening)
      apply saveChunksToBlock_stops receiver.control hopening havoids true hregistry hstops
      intro more raised hstops n p hashers hhashers w hw ok
      exact saved_traffic receiver.control inner hinner hstops n p hhashers hw ok

-- The last part ends the directory, which its metadata may misfit.
theorem unwritten_plain (traffic : Traffic) (hflows : traffic.Flows receiver.env)
    (hplain : traffic.Plain) {n : Nat} {registry : Registry} {p : Part} {w : World}
    (hregistry : w.registry = registry)
    (hmisfits : ∃ e, (traffic.reads receiver.env registry p []).2.stored receiver.env registry none =
      .error e) : Unwritten receiver n none traffic.events p w := by
  induction traffic generalizing p w with
  | nil =>
      intro fuel
      refine ⟨p, rfl, ?_⟩
      have hsame : p.chunk [] = p := by rw [Part.chunk, List.append_nil]
      rw [Traffic.reads, hsame] at hmisfits
      rw [hregistry]
      exact hmisfits
  | event event rest ih =>
      apply unwritten_event hflows.1
      exact ih hflows.2 hplain ((after_registry ..).trans hregistry) hmisfits
  | pass b rest ih =>
      apply unwritten_pass hflows.1
      intro _
      exact ih hflows.2 hplain hregistry hmisfits
  | block id opening body closing rest => exact hplain.elim
  | inside id opening inner => exact hplain.elim

end Directory

end BeeRpc
