import BeeRpc.Memory

namespace BeeRpc

open Wire Effect

-- What happens before a reader of parser_iterator gets this buffer.
def Buffer.arrival (b : Buffer) : List Event := .pull :: if b.isSignal then [.change] else []

-- The frames and the blocks that parser_iterator has open, where it has not ended.
abbrev Opened := Option (Frames × List BlockId)

-- One turn of the loops of parser_iterator.
def parserTurn (env : Enviroment) (frames : Frames) (blocks : List BlockId) (b : Buffer) :
    Except Err (List Event × Opened) :=
  match truthy (b.blockHash env) with
  | some hash =>
      if hash ∈ blocks then
        if blocks.head? = some hash then
          let mark : List Event := if blocks.tail = [] then [] else [.buffer b]
          .ok (b.arrival ++ mark ++ (leave frames).1, (leave frames).2.map (·, blocks.tail))
        else .error .intersection
      else if MAX_BLOCK_NESTING ≤ blocks.length then .error .nestedTooDeep
      else .ok (b.arrival ++ [.ask hash, .buffer b], some (b :: frames, hash :: blocks))
  | none =>
      if (passOn b).2 then .ok (b.arrival ++ (passOn b).1, some (frames, blocks))
      else .ok (b.arrival ++ (passOn b).1 ++ (leave frames).1, (leave frames).2.map (·, blocks))

-- What parser_iterator gives of these buffers, whatever comes behind them, and what it then has
-- open. It may end with the last of them.
inductive ReadsOn (env : Enviroment) :
    Frames → List BlockId → List Buffer → List Event → Opened → Prop where
  | nil (frames : Frames) (blocks : List BlockId) :
      ReadsOn env frames blocks [] [] (some (frames, blocks))
  | turn {frames frames' : Frames} {blocks blocks' : List BlockId} {b : Buffer} {rest : List Buffer}
      {events more : List Event} {opened : Opened} :
      parserTurn env frames blocks b = .ok (events, some (frames', blocks')) →
      ReadsOn env frames' blocks' rest more opened →
      ReadsOn env frames blocks (b :: rest) (events ++ more) opened
  | last {frames : Frames} {blocks : List BlockId} {b : Buffer} {events : List Event} :
      parserTurn env frames blocks b = .ok (events, none) →
      ReadsOn env frames blocks [b] events none

-- What is then still to come.
def readingOn (env : Enviroment) (rest : List Buffer) : Opened → Yielded Event
  | some (frames, blocks) => parserIterator env frames blocks rest
  | none => .pure []

-- What the writers take of a parser_iterator, as they nest it: what is not a buffer, buffers that
-- open no block, blocks up to the marker that ends them, and a block that does not end in it.
inductive Traffic where
  | nil
  | event (event : Event) (rest : Traffic)
  | pass (b : Buffer) (rest : Traffic)
  | block (id : BlockId) (opening : Buffer) (body : Traffic) (closing : Buffer) (rest : Traffic)
  | inside (id : BlockId) (opening : Buffer) (inner : Traffic)
  deriving Repr, DecidableEq

namespace Traffic

def events : Traffic → List Event
  | nil => []
  | event e rest => e :: rest.events
  | pass b rest => .buffer b :: rest.events
  | block _ opening body closing rest =>
      .buffer opening :: (body.events ++ .buffer closing :: rest.events)
  | inside _ opening inner => .buffer opening :: inner.events

def Flows (env : Enviroment) : Traffic → Prop
  | nil => True
  | event e rest => (∀ b, e ≠ .buffer b) ∧ rest.Flows env
  | pass b rest => truthy (b.blockHash env) = none ∧ rest.Flows env
  | block id opening body closing rest =>
      truthy (opening.blockHash env) = some id ∧ closing.blockHash env = some id ∧
        Avoids env id body.events ∧ body.Flows env ∧ rest.Flows env
  | inside id opening inner =>
      truthy (opening.blockHash env) = some id ∧ Avoids env id inner.events ∧ inner.Flows env

end Traffic

section Stream

variable {env : Enviroment}

theorem parserIterator_turn (frames : Frames) (blocks : List BlockId) (b : Buffer)
    (rest : List Buffer) : parserIterator env frames blocks (b :: rest) =
      match parserTurn env frames blocks b with
      | .ok (events, opened) => (Yielded.pure events).andThen (readingOn env rest opened)
      | .error e => ⟨b.arrival, some e⟩ := by
  have hend (events : List Event) :
      (Yielded.pure events).andThen (Yielded.pure []) = Yielded.pure events := by
    rw [pure_andThen_pure, List.append_nil]
  rw [parserIterator, parserTurn]
  cases truthy (b.blockHash env) with
  | none =>
      rcases hpass : passOn b with ⟨passed, _ | _⟩
      · rcases hleave : leave frames with ⟨events, _ | around⟩
        · exact (hend _).symm
        · rfl
      · rfl
  | some hash =>
      simp only
      split
      · split
        · rcases hleave : leave frames with ⟨events, _ | around⟩
          · exact (hend _).symm
          · rfl
        · rfl
      · split
        · rfl
        · rfl

theorem ReadsOn.stream {frames : Frames} {blocks : List BlockId} {front : List Buffer}
    {events : List Event} {opened : Opened} (h : ReadsOn env frames blocks front events opened)
    (rest : List Buffer) : parserIterator env frames blocks (front ++ rest) =
      (Yielded.pure events).andThen (readingOn env rest opened) := by
  induction h with
  | nil => rfl
  | @turn _ frames' _ blocks' _ more _ _ _ hturn _ ih =>
      have hrest : readingOn env (more ++ rest) (some (frames', blocks')) =
        parserIterator env frames' blocks' (more ++ rest) := rfl
      rw [List.cons_append, parserIterator_turn, hturn]
      simp only [hrest]
      rw [ih, andThen_andThen]
  | last hturn =>
      rw [List.cons_append, parserIterator_turn, hturn]
      rfl

theorem count_arrival (b : Buffer) : b.arrival.count .pull = 1 := by
  unfold Buffer.arrival
  split
  · rfl
  · rfl

theorem count_passOn (b : Buffer) : (passOn b).1.count .pull = 0 := by
  apply List.count_eq_zero.mpr
  intro hmem
  unfold passOn at hmem
  split at hmem
  · simp at hmem
  · split at hmem
    · simp at hmem
    · simp at hmem

theorem count_leave (frames : Frames) : (leave frames).1.count .pull = 0 := by
  unfold leave
  split
  · rfl
  · rename_i outermost
    have hpassed := count_passOn outermost
    split
    · rename_i hpass
      rw [hpass] at hpassed
      exact hpassed
    · rename_i hpass
      rw [hpass] at hpassed
      exact hpassed
  · rfl

-- A turn begins with the buffer and pulls no other.
theorem parserTurn_pulls {frames : Frames} {blocks : List BlockId} {b : Buffer}
    {events : List Event} {opened : Opened}
    (h : parserTurn env frames blocks b = .ok (events, opened)) :
    ∃ more, events = .pull :: more ∧ more.count .pull = 0 := by
  have harrival : ∃ more, b.arrival = .pull :: more ∧ more.count .pull = 0 := by
    refine ⟨_, rfl, ?_⟩
    split
    · rfl
    · rfl
  obtain ⟨more, harrival, hmore⟩ := harrival
  unfold parserTurn at h
  split at h
  · split at h
    · split at h
      · obtain ⟨rfl, -⟩ := Prod.mk.inj (Except.ok.inj h)
        refine ⟨_, by rw [harrival, List.cons_append, List.cons_append], ?_⟩
        rw [List.count_append, List.count_append, hmore, count_leave]
        split
        · rfl
        · simp
      · cases h
    · split at h
      · cases h
      · obtain ⟨rfl, -⟩ := Prod.mk.inj (Except.ok.inj h)
        refine ⟨_, by rw [harrival, List.cons_append], ?_⟩
        rw [List.count_append, hmore]
        simp
  · split at h
    · obtain ⟨rfl, -⟩ := Prod.mk.inj (Except.ok.inj h)
      refine ⟨_, by rw [harrival, List.cons_append], ?_⟩
      rw [List.count_append, hmore, count_passOn]
    · obtain ⟨rfl, -⟩ := Prod.mk.inj (Except.ok.inj h)
      refine ⟨_, by rw [harrival, List.cons_append, List.cons_append], ?_⟩
      rw [List.count_append, List.count_append, hmore, count_passOn, count_leave]

theorem ReadsOn.count {frames : Frames} {blocks : List BlockId} {front : List Buffer}
    {events : List Event} {opened : Opened} (h : ReadsOn env frames blocks front events opened) :
    events.count .pull = front.length := by
  induction h with
  | nil => rfl
  | turn hturn _ ih =>
      obtain ⟨more, rfl, hmore⟩ := parserTurn_pulls hturn
      rw [List.cons_append, List.count_cons_self, List.count_append, hmore, ih, List.length_cons]
      omega
  | last hturn =>
      obtain ⟨more, rfl, hmore⟩ := parserTurn_pulls hturn
      rw [List.count_cons_self, hmore]
      rfl

-- parser_iterator ends somewhere in these buffers, or refuses one of them, or reads on.
theorem readsOn_cases (env : Enviroment) (frames : Frames) (blocks : List BlockId)
    (front : List Buffer) : ∃ read more events opened, front = read ++ more ∧
      ReadsOn env frames blocks read events opened ∧
      (opened = none ∨ ∃ frames' blocks', opened = some (frames', blocks') ∧
        (more = [] ∨ ∃ b rest e, more = b :: rest ∧ parserTurn env frames' blocks' b = .error e)) := by
  induction front generalizing frames blocks with
  | nil => exact ⟨[], [], [], _, rfl, .nil frames blocks, Or.inr ⟨_, _, rfl, Or.inl rfl⟩⟩
  | cons b rest ih =>
      cases hturn : parserTurn env frames blocks b with
      | error e =>
          exact ⟨[], b :: rest, [], _, rfl, .nil frames blocks,
            Or.inr ⟨_, _, rfl, Or.inr ⟨b, rest, e, rfl, hturn⟩⟩⟩
      | ok result =>
          obtain ⟨events, _ | ⟨frames', blocks'⟩⟩ := result
          · exact ⟨[b], rest, events, none, rfl, .last hturn, Or.inl rfl⟩
          · obtain ⟨read, more, events', opened, rfl, hreads, hopened⟩ := ih frames' blocks'
            exact ⟨b :: read, more, _, opened, rfl, .turn hturn hreads, hopened⟩

-- The first of what one buffer gives.
theorem ReadsOn.single {frames : Frames} {blocks : List BlockId} {b : Buffer}
    {events first left : List Event} {opened : Opened}
    (hturn : parserTurn env frames blocks b = .ok (events, opened)) (hfirst : first ≠ [])
    (hevents : events = first ++ left) :
    ReadsOn env frames blocks [b] (first ++ left) opened ∧ left.count .pull = 0 := by
  obtain ⟨more, rfl, hmore⟩ := parserTurn_pulls hturn
  constructor
  · rw [← hevents]
    cases opened with
    | none => exact .last hturn
    | some state =>
        have h := ReadsOn.turn hturn (.nil state.1 state.2)
        rwa [List.append_nil] at h
  · obtain ⟨event, first, rfl⟩ := List.exists_cons_of_ne_nil hfirst
    obtain ⟨-, hmore'⟩ := List.cons.inj hevents
    rw [hmore'] at hmore
    have hcount : (first ++ left).count .pull = 0 := hmore
    rw [List.count_append] at hcount
    omega

-- The buffers that the first of the events come from.
theorem ReadsOn.split {frames : Frames} {blocks : List BlockId} {front : List Buffer}
    {first rest : List Event} {opened : Opened}
    (h : ReadsOn env frames blocks front (first ++ rest) opened) (hfirst : first ≠ []) :
    ∃ read more unread opened', front = read ++ more ∧ read ≠ [] ∧
      ReadsOn env frames blocks read (first ++ unread) opened' ∧ unread.count .pull = 0 := by
  generalize hevents : first ++ rest = events at h
  induction h generalizing first rest with
  | nil => exact absurd (List.append_eq_nil_iff.mp hevents).1 hfirst
  | @turn _ _ _ _ b more events' more' _ hturn hmore ih =>
      rcases List.append_eq_append_iff.mp hevents with ⟨left, rfl, hrest⟩ | ⟨left, rfl, hrest⟩
      · obtain ⟨hreads, hleft⟩ := ReadsOn.single hturn hfirst rfl
        exact ⟨[b], more, left, _, rfl, List.cons_ne_nil _ _, hreads, hleft⟩
      · cases left with
        | nil =>
            have hsame : events' = (events' ++ []) ++ [] := by simp
            obtain ⟨hreads, hleft⟩ := ReadsOn.single hturn hfirst hsame
            exact ⟨[b], more, [], _, rfl, List.cons_ne_nil _ _, hreads, hleft⟩
        | cons event left =>
            obtain ⟨read, rest', unread, opened', rfl, -, hreads, hunread⟩ :=
              ih (List.cons_ne_nil event left) hrest.symm
            refine ⟨b :: read, rest', unread, opened', rfl, List.cons_ne_nil _ _, ?_, hunread⟩
            rw [List.append_assoc]
            exact .turn hturn hreads
  | @last _ _ b events' hturn =>
      obtain ⟨hreads, hleft⟩ := ReadsOn.single hturn hfirst hevents.symm
      exact ⟨[b], [], rest, none, rfl, List.cons_ne_nil _ _, hreads, hleft⟩

theorem ReadsOn.ne_nil {frames : Frames} {blocks : List BlockId} {read : List Buffer}
    {events : List Event} (h : ReadsOn env frames blocks read events none) : read ≠ [] := by
  cases h with
  | turn _ _ => exact List.cons_ne_nil _ _
  | last _ => exact List.cons_ne_nil _ _

theorem avoids_append {id : BlockId} {left right : List Event} (hleft : Avoids env id left)
    (hright : Avoids env id right) : Avoids env id (left ++ right) := by
  intro b hb
  rcases List.mem_append.mp hb with hb | hb
  · exact hleft b hb
  · exact hright b hb

theorem avoids_cons {id : BlockId} {event : Event} {items : List Event}
    (hevent : ∀ b, event = .buffer b → b.blockHash env ≠ some id) (hitems : Avoids env id items) :
    Avoids env id (event :: items) := by
  intro b hb
  rcases List.mem_cons.mp hb with hb | hb
  · exact hevent b hb.symm
  · exact hitems b hb

theorem arrival_avoids (id : BlockId) (b : Buffer) : Avoids env id b.arrival := by
  intro c hc
  unfold Buffer.arrival at hc
  split at hc
  · simp at hc
  · simp at hc

theorem avoids_or_split (id : BlockId) (items : List Event) :
    Avoids env id items ∨ ∃ front c after, items = front ++ .buffer c :: after ∧
      c.blockHash env = some id ∧ Avoids env id front := by
  induction items with
  | nil => exact Or.inl (avoids_nil id)
  | cons event rest ih =>
      by_cases hevent : ∃ c, event = .buffer c ∧ c.blockHash env = some id
      · obtain ⟨c, rfl, hc⟩ := hevent
        exact Or.inr ⟨[], c, rest, rfl, hc, avoids_nil id⟩
      · have hne : ∀ c, event = .buffer c → c.blockHash env ≠ some id :=
          fun c hc hhash => hevent ⟨c, hc, hhash⟩
        rcases ih with havoids | ⟨front, c, after, rfl, hc, havoids⟩
        · exact Or.inl (avoids_cons hne havoids)
        · exact Or.inr ⟨event :: front, c, after, rfl, hc, avoids_cons hne havoids⟩

-- Whatever parser_iterator gives can be read as such traffic.
theorem exists_traffic (env : Enviroment) (events : List Event) :
    ∃ traffic : Traffic, traffic.Flows env ∧ traffic.events = events := by
  generalize hn : events.length = n
  induction n using Nat.strongRecOn generalizing events with
  | _ n ih =>
      cases events with
      | nil => exact ⟨.nil, trivial, rfl⟩
      | cons event rest =>
          have hless : rest.length < n := by rw [← hn]; exact Nat.lt_succ_self _
          cases event with
          | buffer b =>
              cases hb : truthy (b.blockHash env) with
              | none =>
                  obtain ⟨traffic, hflows, rfl⟩ := ih _ hless rest rfl
                  exact ⟨.pass b traffic, ⟨hb, hflows⟩, rfl⟩
              | some id =>
                  rcases @avoids_or_split env id rest with havoids | ⟨front, c, after, rfl, hc,
                    havoids⟩
                  · obtain ⟨inner, hflows, rfl⟩ := ih _ hless rest rfl
                    exact ⟨.inside id b inner, ⟨hb, havoids, hflows⟩, rfl⟩
                  · rw [List.length_append, List.length_cons] at hless
                    obtain ⟨body, hbody, rfl⟩ := ih front.length (by omega) front rfl
                    obtain ⟨traffic, hflows, rfl⟩ := ih after.length (by omega) after rfl
                    exact ⟨.block id b body c traffic, ⟨hb, hc, havoids, hbody, hflows⟩, rfl⟩
          | _ =>
              obtain ⟨traffic, hflows, rfl⟩ := ih _ hless rest rfl
              exact ⟨.event _ traffic, ⟨fun _ => Event.noConfusion, hflows⟩, rfl⟩

end Stream

end BeeRpc
