import BeeRpc.Unwritten

namespace BeeRpc

open Wire Effect

-- What parse_message gathers of these events, or what it raises: at a marker whose hash is empty,
-- and at a block that is held and cannot be read. A block that is held is taken from the registry,
-- and its buffers are thrown away.
def gathered (env : Enviroment) (registry : Registry) : Option BlockId → List Event → Except Err Bytes
  | _, [] => .ok []
  | some held, .buffer b :: rest =>
      if b.blockHash env = some held then do
        let more ← gathered env registry none rest
        return b.content ++ more
      else gathered env registry (some held) rest
  | none, .buffer b :: rest =>
      match b.blockHash env with
      | some id =>
          if id = [] then .error .fileNotFound
          else if registry.blockExists id then do
            let content ← registry.readContent env id
            let more ← gathered env registry (some id) rest
            return content ++ more
          else do
            let more ← gathered env registry none rest
            return b.content ++ more
      | none => do
          let more ← gathered env registry none rest
          return b.content ++ more
  | inBlock, _ :: rest => gathered env registry inBlock rest

section Memory

variable {receiver : Receiver}

-- What comes at the end is raised, whatever parse_message makes of what is in front of it.
theorem messageLoop_raises (e : Err) (items : List Event) (inBlock : Option BlockId) (acc : Bytes)
    (w : World) :
    Ends (receiver.messageLoop (some e) items inBlock acc) w (fun _ _ => False) fun _ _ => True := by
  induction items generalizing inBlock acc w with
  | nil => exact trivial
  | cons event rest ih =>
      cases event with
      | buffer b =>
          rw [Receiver.messageLoop]
          split
          · split
            · exact ih _ _ w
            · exact ih _ _ w
          · split
            · exact ih _ _ w
            · split
              · exact ih _ _ w
              · simp only
                split
                · exact trivial
                · simp only [ends_bind, ends_get]
                  split
                  · split
                    · exact trivial
                    · exact ih _ _ w
                  · exact ih _ _ w
      | _ => exact ih _ _ (w.after receiver.control _)

variable (raised : Option Err) {b : Buffer} {id : BlockId}

-- Inside a block that is held everything up to its end is thrown away.
theorem messageLoop_inside (hb : b.blockHash receiver.env ≠ some id) (rest : List Event)
    (acc : Bytes) : receiver.messageLoop raised (.buffer b :: rest) (some id) acc =
      receiver.messageLoop raised rest (some id) acc := by
  rw [Receiver.messageLoop]
  rw [Buffer.blockHash] at hb
  cases hblock : b.block with
  | none => rfl
  | some block =>
      rw [hblock, Option.bind_some] at hb
      simp only [Option.map_some, if_neg hb, Option.isSome_some, if_true]

theorem messageLoop_ends (hb : b.blockHash receiver.env = some id) (rest : List Event)
    (acc : Bytes) : receiver.messageLoop raised (.buffer b :: rest) (some id) acc =
      receiver.messageLoop raised rest none (acc ++ b.content) := by
  obtain ⟨block, hblock, hid⟩ := Option.bind_eq_some_iff.mp hb
  simp only [Receiver.messageLoop, hblock, Option.map_some, hid, if_true]

-- Outside of them a marker without a hash of ours is content like any other.
theorem messageLoop_outside (hb : b.blockHash receiver.env = none) (rest : List Event)
    (acc : Bytes) : receiver.messageLoop raised (.buffer b :: rest) none acc =
      receiver.messageLoop raised rest none (acc ++ b.content) := by
  rw [Receiver.messageLoop]
  rw [Buffer.blockHash] at hb
  cases hblock : b.block with
  | none => rfl
  | some block =>
      rw [hblock, Option.bind_some] at hb
      simp only [Option.map_some, hb, if_true]

-- Another marker is looked up.
theorem messageLoop_lookup (hb : b.blockHash receiver.env = some id) (rest : List Event)
    (acc : Bytes) {w : World} {ok : Bytes → World → Prop}
    (hnew : id ≠ [] → ¬ w.registry.blockExists id = true →
      Ends (receiver.messageLoop raised rest none (acc ++ b.content)) w ok fun _ _ => True)
    (hheld : id ≠ [] → w.registry.blockExists id = true → ∀ content,
      w.registry.readContent receiver.env id = .ok content →
        Ends (receiver.messageLoop raised rest (some id) (acc ++ content)) w ok fun _ _ => True) :
    Ends (receiver.messageLoop raised (.buffer b :: rest) none acc) w ok fun _ _ => True := by
  obtain ⟨block, hblock, hid⟩ := Option.bind_eq_some_iff.mp hb
  simp only [Receiver.messageLoop, hblock, Option.map_some, hid, reduceCtorEq, if_false,
    Option.isSome_none, Bool.false_eq_true, Option.getD_some]
  by_cases hempty : id = []
  · rw [if_pos hempty]
    exact trivial
  · rw [if_neg hempty]
    simp only [ends_bind, ends_get]
    by_cases hexists : w.registry.blockExists id = true
    · rw [if_pos hexists]
      have hread := hheld hempty hexists
      unfold Registry.readContent at hread
      split
      · exact trivial
      · rename_i hraised
        apply hread
        simp only [hraised]
    · rw [if_neg hexists]
      exact hnew hempty hexists

theorem gathered_event {event : Event} (hevent : ∀ b, event ≠ .buffer b) {env : Enviroment}
    {registry : Registry} {inBlock : Option BlockId} {rest : List Event} :
    gathered env registry inBlock (event :: rest) = gathered env registry inBlock rest := by
  cases event with
  | buffer b => exact absurd rfl (hevent b)
  | _ => cases inBlock <;> rfl

-- What it has then gathered, unless something was raised.
theorem messageLoop_gathered (items more : List Event) (inBlock : Option BlockId) (acc : Bytes)
    {registry : Registry} {w : World} (hregistry : w.registry = registry) {ok : Bytes → World → Prop}
    (h : ∀ content, gathered receiver.env registry inBlock items = .ok content →
      ∀ inBlock' w', w'.registry = registry →
        Ends (receiver.messageLoop raised more inBlock' (acc ++ content)) w' ok fun _ _ => True) :
    Ends (receiver.messageLoop raised (items ++ more) inBlock acc) w ok fun _ _ => True := by
  induction items generalizing inBlock acc w with
  | nil =>
      have hend := h [] rfl inBlock w hregistry
      rw [List.append_nil] at hend
      exact hend
  | cons event rest ih =>
      cases event with
      | buffer b =>
          rw [List.cons_append]
          have hchunk (hgathered : gathered receiver.env registry inBlock (.buffer b :: rest) =
                (do let more ← gathered receiver.env registry none rest; return b.content ++ more)) :
              Ends (receiver.messageLoop raised (rest ++ more) none (acc ++ b.content)) w ok
                fun _ _ => True := by
            refine ih none _ hregistry fun content hcontent => ?_
            rw [List.append_assoc]
            apply h
            rw [hgathered, hcontent]
            rfl
          cases inBlock with
          | some held =>
              by_cases hb : b.blockHash receiver.env = some held
              · rw [messageLoop_ends raised hb]
                exact hchunk (by rw [gathered, if_pos hb])
              · rw [messageLoop_inside raised hb]
                rw [gathered, if_neg hb] at h
                exact ih (some held) acc hregistry h
          | none =>
              cases hb : b.blockHash receiver.env with
              | none =>
                  rw [messageLoop_outside raised hb]
                  exact hchunk (by simp only [gathered, hb])
              | some id =>
                  apply messageLoop_lookup raised hb
                  · intro hid hexists
                    rw [hregistry] at hexists
                    exact hchunk (by simp only [gathered, hb, if_neg hid, if_neg hexists])
                  · intro hid hexists content hread
                    rw [hregistry] at hexists hread
                    refine ih (some id) _ hregistry fun gathered' hgathered => ?_
                    rw [List.append_assoc]
                    apply h
                    simp only [gathered, hb, if_neg hid, if_pos hexists, hread, hgathered]
                    rfl
      | _ =>
          rw [gathered_event (fun _ => Event.noConfusion)] at h
          exact ih inBlock acc ((after_registry receiver.control w _).trans hregistry) h

end Memory

section Messages

variable (receiver : Receiver)

-- What a message for the disk is refused at, up to a marker that cannot be resolved: with this part
-- of its directory at hand, and a parser_iterator begun at these buffers in front of the marker.
inductive Receiver.RefusesOnDisk (bad : Buffer) : Registry → Part → List Buffer → Prop where
  -- something behind the part at hand
  | next {registry : Registry} {p : Part} {read more : List Buffer} {traffic : Traffic}
      {unread : List Event} {opened : Opened} :
      ReadsOn receiver.env [] [] read (traffic.events ++ unread) opened →
      unread.count .pull = 0 → traffic.Flows receiver.env →
      traffic.Leads (opened = none ∧ unread = []) →
      Receiver.RefusesOnDisk bad (traffic.reads receiver.env registry p []).1
        (traffic.reads receiver.env registry p []).2 more →
      Receiver.RefusesOnDisk bad registry p (read ++ more)
  -- the block that ends the part at hand, or what is in front of it
  | failed {registry : Registry} {p : Part} {read : List Buffer} (more : List Buffer)
      {traffic : Traffic} {unread : List Event} {opened : Opened} :
      ReadsOn receiver.env [] [] read (traffic.events ++ unread) opened →
      traffic.Flows receiver.env → traffic.Leads (opened = none ∧ unread = []) →
      traffic.Rejects receiver.env true registry (some []) →
      Receiver.RefusesOnDisk bad registry p (read ++ more)
  -- something in the part at hand
  | rejected {registry : Registry} {p : Part} {read : List Buffer} (more : List Buffer)
      {traffic : Traffic} {opened : Opened} :
      ReadsOn receiver.env [] [] read traffic.events opened → traffic.Flows receiver.env →
      traffic.Within → traffic.Rejects receiver.env true registry none →
      Receiver.RefusesOnDisk bad registry p (read ++ more)
  -- a marker that parser_iterator raises at
  | crossed {registry : Registry} {p : Part} {read : List Buffer} {b : Buffer} (more : List Buffer)
      {traffic : Traffic} {frames : Frames} {blocks : List BlockId} {e : Err} :
      ReadsOn receiver.env [] [] read traffic.events (some (frames, blocks)) →
      traffic.Flows receiver.env → traffic.Within →
      parserTurn receiver.env frames blocks b = .error e →
      Receiver.RefusesOnDisk bad registry p (read ++ b :: more)
  -- the directory, where parser_iterator ends the message in front of the marker
  | misfits {registry : Registry} {p : Part} {read : List Buffer} (more : List Buffer)
      {traffic : Traffic} {e : Err} :
      ReadsOn receiver.env [] [] read traffic.events none → traffic.Flows receiver.env →
      traffic.Plain →
      (traffic.reads receiver.env registry p []).2.stored receiver.env registry none = .error e →
      Receiver.RefusesOnDisk bad registry p (read ++ more)
  -- the marker itself, outside all blocks that are held when they start
  | marker {registry : Registry} {p : Part} {front : List Buffer} {traffic : Traffic}
      {frames : Frames} {blocks : List BlockId} :
      ReadsOn receiver.env [] [] front traffic.events (some (frames, blocks)) →
      traffic.Flows receiver.env → traffic.Within → bad.chunk.isSome = true →
      traffic.Unheld receiver.env registry → Receiver.RefusesOnDisk bad registry p front

-- Where it is not: nothing is refused in front of the marker, which has no chunk or is in a block
-- that is held, or in front of which parser_iterator has ended the message.
inductive Receiver.MissesOnDisk (bad : Buffer) : Registry → Part → List Buffer → Prop where
  | next {registry : Registry} {p : Part} {read more : List Buffer} {traffic : Traffic}
      {unread : List Event} {opened : Opened} :
      ReadsOn receiver.env [] [] read (traffic.events ++ unread) opened →
      unread.count .pull = 0 → traffic.Flows receiver.env →
      traffic.Leads (opened = none ∧ unread = []) →
      ¬ traffic.Rejects receiver.env true registry (some []) →
      Receiver.MissesOnDisk bad (traffic.reads receiver.env registry p []).1
        (traffic.reads receiver.env registry p []).2 more →
      Receiver.MissesOnDisk bad registry p (read ++ more)
  | ended {registry : Registry} {p : Part} {read : List Buffer} (more : List Buffer)
      {traffic : Traffic} {stored : Stored} :
      ReadsOn receiver.env [] [] read traffic.events none → traffic.Flows receiver.env →
      traffic.Plain → ¬ traffic.Rejects receiver.env true registry none →
      (traffic.reads receiver.env registry p []).2.stored receiver.env registry none = .ok stored →
      Receiver.MissesOnDisk bad registry p (read ++ more)
  | passed {registry : Registry} {p : Part} {front : List Buffer} {traffic : Traffic}
      {frames : Frames} {blocks : List BlockId} :
      ReadsOn receiver.env [] [] front traffic.events (some (frames, blocks)) →
      traffic.Flows receiver.env → traffic.Within →
      ¬ traffic.Rejects receiver.env true registry none →
      bad.chunk = none ∨ ¬ traffic.Unheld receiver.env registry →
      Receiver.MissesOnDisk bad registry p front

-- A message for the memory is refused in front of the marker only: at what parse_message cannot
-- read, at what it has gathered where parser_iterator ends the message, or at a marker that
-- parser_iterator refuses.
def Receiver.RefusesInMemory (registry : Registry) (b : Buffer) (field : Field)
    (front : List Buffer) : Prop :=
  ∃ read more events opened, front = read ++ more ∧ ReadsOn receiver.env [] [] read events opened ∧
    ((∃ e, gathered receiver.env registry none events = .error e) ∨
      (opened = none ∧ ∃ content e, gathered receiver.env registry none events = .ok content ∧
        receiver.turn b field content = .error e) ∨
      ∃ frames blocks c rest e, opened = some (frames, blocks) ∧ more = c :: rest ∧
        parserTurn receiver.env frames blocks c = .error e)

def Receiver.MissesInMemory (registry : Registry) (b : Buffer) (field : Field)
    (front : List Buffer) : Prop :=
  ∃ read more events opened content, front = read ++ more ∧
    ReadsOn receiver.env [] [] read events opened ∧
    gathered receiver.env registry none events = .ok content ∧
      if opened = none then ∃ result, receiver.turn b field content = .ok result else more = []

-- What the message is refused at by the time its marker has been read.
def Receiver.Refuses (registry : Registry) (front : List Buffer) (bad : Buffer) : Prop :=
  receiver.isCorrect = false ∨ ∀ b ∈ (front ++ [bad]).head?,
    ∀ field ∈ receiver.allIndices.lookup (receiver.indexOf b),
      if receiver.mode (receiver.indexOf b) then receiver.RefusesInMemory registry b field front
      else receiver.RefusesOnDisk bad registry {} front

def Receiver.Misses (registry : Registry) (front : List Buffer) (bad : Buffer) : Prop :=
  ∃ b ∈ (front ++ [bad]).head?, ∃ field ∈ receiver.allIndices.lookup (receiver.indexOf b),
    if receiver.mode (receiver.indexOf b) then receiver.MissesInMemory registry b field front
    else receiver.MissesOnDisk bad registry {} front

variable {receiver}

theorem ReadsOn.events_of {env : Enviroment} {read later : List Buffer} {events : List Event}
    {opened : Opened} (h : ReadsOn env [] [] read events opened) {w : World}
    (hrequests : w.requests = read ++ later) :
    parserIterator env [] [] w.requests =
      ⟨events ++ (readingOn env later opened).items, (readingOn env later opened).raised⟩ := by
  rw [hrequests, h.stream later]
  rfl

-- Behind a turn that is refused nothing is read.
theorem readingOn_error {env : Enviroment} {frames : Frames} {blocks : List BlockId} {b : Buffer}
    {e : Err} (h : parserTurn env frames blocks b = .error e) (rest : List Buffer) :
    readingOn env (b :: rest) (some (frames, blocks)) = ⟨b.arrival, some e⟩ := by
  rw [readingOn, parserIterator_turn, h]

-- The marker itself is what stops the loop over the parts.
theorem readingOn_unresolvable {env : Enviroment} {bad : Buffer} (hbad : bad.Unresolvable env)
    (hchunk : bad.chunk.isSome = true) (rest : List Buffer) (frames : Frames) (blocks : List BlockId) :
    ∃ more, (readingOn env (bad :: rest) (some (frames, blocks))).items =
      bad.arrival ++ .buffer bad :: more := by
  have hpass : (passOn bad).1 = [.buffer bad] := by rw [passOn, if_pos hchunk]
  rw [readingOn, parserIterator_turn, parserTurn]
  simp only [hbad.truthy, hpass]
  split
  · rename_i events opened hturn
    split at hturn
    · obtain ⟨rfl, -⟩ := Prod.mk.inj (Except.ok.inj hturn)
      exact ⟨(readingOn env rest opened).items, by simp⟩
    · obtain ⟨rfl, -⟩ := Prod.mk.inj (Except.ok.inj hturn)
      exact ⟨(leave frames).1 ++ (readingOn env rest opened).items, by simp⟩
  · rename_i e hturn
    split at hturn
    · cases hturn
    · cases hturn

-- So the directory is not written.
theorem dirUnwritten_refuses {bad : Buffer} (hbad : bad.Unresolvable receiver.env)
    {rest : List Buffer} {registry : Registry} {p : Part} {front : List Buffer}
    (h : receiver.RefusesOnDisk bad registry p front) {w : World} (hregistry : w.registry = registry)
    (hrequests : w.requests = front ++ bad :: rest) : DirUnwritten receiver p w := by
  induction h generalizing w with
  | next hreads hpulls hflows hleads _ ih =>
      rw [List.append_assoc] at hrequests
      intro n
      rw [hreads.events_of hrequests, List.append_assoc]
      apply unwritten_leads _ hflows hleads ?_ hregistry
      · intro _ w' hregistry' hleft
        apply ih hregistry'
        have hcount := hreads.count
        rw [List.count_append, hpulls, Nat.add_zero] at hcount
        rw [hleft, hcount, hrequests, List.drop_left]
      · rintro ⟨rfl, rfl⟩
        exact ⟨rfl, rfl⟩
  | failed more hreads hflows hleads hrejects =>
      rw [List.append_assoc] at hrequests
      intro n
      rw [hreads.events_of hrequests, List.append_assoc]
      apply unwritten_leads _ hflows hleads ?_ hregistry
      · exact fun haccepts => absurd hrejects haccepts
      · rintro ⟨rfl, rfl⟩
        exact ⟨rfl, rfl⟩
  | rejected more hreads hflows hwithin hrejects =>
      rw [List.append_assoc] at hrequests
      intro n
      rw [hreads.events_of hrequests]
      exact unwritten_within _ hflows hwithin (Or.inl hrejects) hregistry
  | @crossed _ _ _ b more _ frames _ e hreads hflows hwithin hturn =>
      rw [List.append_assoc] at hrequests
      intro n
      rw [hreads.events_of hrequests, List.cons_append, readingOn_error hturn]
      exact unwritten_within _ hflows hwithin (Or.inr (Or.inr ⟨b, e, rfl, rfl⟩)) hregistry
  | misfits more hreads hflows hplain hmisfits =>
      rw [List.append_assoc] at hrequests
      intro n
      rw [hreads.events_of hrequests, readingOn, Yielded.pure, List.append_nil]
      exact unwritten_plain _ hflows hplain hregistry ⟨_, hmisfits⟩
  | @marker _ _ _ _ frames blocks hreads hflows hwithin hchunk hunheld =>
      obtain ⟨more, hitems⟩ := readingOn_unresolvable hbad hchunk rest frames blocks
      intro n
      rw [hreads.events_of hrequests, hitems]
      exact unwritten_within _ hflows hwithin (Or.inr (Or.inl ⟨bad, more, hbad, rfl, hunheld⟩))
        hregistry

theorem finishDir_misfits {dirname : Nat} {result : List (Nat × Bytes) × List JsonEntry} {w : World}
    (h : Misfits receiver.env result w) :
    Ends (finishDir receiver dirname result) w (fun _ _ => False) fun _ _ => True := by
  obtain ⟨q, rfl, e, he⟩ := h
  unfold Part.stored at he
  split at he
  · cases he
  · rename_i hlen
    simp only [finishDir, if_neg hlen]
    split at he
    · cases he
    · rename_i hskip
      simp only [if_neg hskip, ends_bind, ends_get]
      cases hmade : generateWbpFile receiver.env w.registry { parts := q.allParts, json := q.allJson } with
      | error e => exact trivial
      | ok directory =>
          simp only [hmade] at he
          cases he

theorem saveToDir_refuses {bad : Buffer} (hbad : bad.Unresolvable receiver.env) {front rest : List Buffer}
    {w : World} (h : receiver.RefusesOnDisk bad w.registry {} front)
    (hrequests : w.requests = front ++ bad :: rest) :
    Ends receiver.saveToDir w (fun _ _ => False) fun _ _ => True := by
  have hparts := saveDirParts_unwritten (@dirUnwritten_refuses receiver bad hbad rest _ _ _ h w.made
    rfl hrequests) rfl (w.made.requests.length + 1)
  rw [Ends, saveToDir_start]
  refine Ends.bind (ends_tryCatch.mpr ?_) fun result w' h => finishDir_misfits h
  exact hparts.mono (fun _ _ h => h) fun _ _ _ => trivial

theorem parseMessage_refuses {b : Buffer} {field : Field} {front rest : List Buffer} {w : World}
    (h : receiver.RefusesInMemory w.registry b field front) (hrequests : w.requests = front ++ rest) :
    Ends (receiver.parseMessage field) w (fun value _ => value = none ∧
      ∃ e, receiver.onEmpty b = .error e) fun _ _ => True := by
  obtain ⟨read, more, events, opened, rfl, hreads, hkind⟩ := h
  rw [List.append_assoc] at hrequests
  simp only [Receiver.parseMessage, ends_bind, ends_get, hreads.events_of hrequests]
  rcases hkind with ⟨e, he⟩ | ⟨rfl, content, e, hgathered, hturn⟩ | ⟨frames, blocks, c, after, e, rfl,
    rfl, hcrosses⟩
  · apply messageLoop_gathered _ events _ none [] rfl
    intro content hcontent
    rw [he] at hcontent
    cases hcontent
  · apply messageLoop_gathered _ events _ none [] rfl
    intro content' hcontent _ w' _
    obtain rfl := Except.ok.inj (hgathered.symm.trans hcontent)
    rw [List.nil_append]
    unfold Receiver.turn at hturn
    simp only [readingOn, Yielded.pure, Receiver.messageLoop, ends_pure]
    split at hturn
    · rename_i hempty
      rw [if_pos hempty]
      exact ⟨rfl, e, hturn⟩
    · rename_i hne
      rw [if_neg hne]
      cases hvalue : receiver.convert field content with
      | error e => exact trivial
      | ok value =>
          rw [hvalue] at hturn
          cases hturn
  · rw [List.cons_append, readingOn_error hcrosses]
    exact (messageLoop_raises e _ none [] w).mono (fun _ _ h => h.elim) fun _ _ h => h

theorem receive_refuses {w : World} {front rest : List Buffer} {bad : Buffer}
    (hrequests : w.requests = front ++ bad :: rest) (hbad : bad.Unresolvable receiver.env)
    {b : Buffer} (h : ∀ field ∈ receiver.allIndices.lookup (receiver.indexOf b),
      if receiver.mode (receiver.indexOf b) then receiver.RefusesInMemory w.registry b field front
      else receiver.RefusesOnDisk bad w.registry {} front) :
    Ends (receiver.receive b) w (fun _ _ => False) fun _ _ => True := by
  cases hfield : receiver.allIndices.lookup (receiver.indexOf b) with
  | none =>
      obtain ⟨e, he⟩ := receive_unknown b w hfield
      exact ends_of_error he trivial
  | some field =>
      rw [receive_eq b hfield]
      have h := h field hfield
      split at h
      · rename_i hmode
        rw [hmode]
        simp only [Receiver.iterateMessage, if_true, ends_bind]
        refine (parseMessage_refuses h hrequests).mono (fun value w' h => ?_) fun _ _ _ => trivial
        obtain ⟨rfl, e, he⟩ := h
        simp only [ends_pure, Option.map_none, he]
        exact trivial
      · rename_i hmode
        rw [Bool.not_eq_true] at hmode
        rw [hmode]
        simp only [Receiver.iterateMessage, Bool.false_eq_true, if_false, ends_bind]
        exact (saveToDir_refuses hbad h hrequests).mono (fun _ _ h => h.elim) fun _ _ _ => trivial

-- What the loop yields before a turn that raises is what it yielded until then.
theorem mainLoop_refuses {w w' : World} {earlier : List Result}
    (hreaches : receiver.Reaches w earlier w') {b : Buffer} (hb : w'.requests.head? = some b)
    (hraises : Ends (receiver.receive b) w' (fun _ _ => False) fun _ _ => True) (fuel : Nat) :
    (receiver.mainLoop fuel w).1.raised.isSome = true ∧
      (receiver.mainLoop fuel w).1.items <+: earlier := by
  induction hreaches generalizing fuel with
  | start w =>
      cases fuel with
      | zero => exact ⟨rfl, List.nil_prefix⟩
      | succ fuel =>
          obtain ⟨rest, hrequests⟩ := List.head?_eq_some_iff.mp hb
          cases hreceive : receiver.receive b w with
          | ok result w' => exact (hraises.of_ok hreceive).elim
          | error e w' =>
              rw [Receiver.mainLoop, hrequests]
              simp only [hreceive]
              exact ⟨rfl, List.nil_prefix⟩
  | @turn w w' w'' first result results hfirst hreceive _ ih =>
      cases fuel with
      | zero => exact ⟨rfl, List.nil_prefix⟩
      | succ fuel =>
          obtain ⟨rest, hrequests⟩ := List.head?_eq_some_iff.mp hfirst
          obtain ⟨hraised, hitems⟩ := ih hb hraises fuel
          rw [Receiver.mainLoop, hrequests]
          simp only [hreceive]
          refine ⟨hraised, ?_⟩
          exact (List.prefix_append_right_inj _).mpr hitems

-- Nothing else can be in front of the marker.
theorem refusesOnDisk_or (bad : Buffer) (registry : Registry) (p : Part) (front : List Buffer) :
    receiver.RefusesOnDisk bad registry p front ∨ receiver.MissesOnDisk bad registry p front := by
  generalize hn : front.length = n
  induction n using Nat.strongRecOn generalizing registry p front with
  | _ n ih =>
      have hnext {read more : List Buffer} (hfront : front = read ++ more) (hread : read ≠ [])
          {traffic : Traffic} {unread : List Event} {opened : Opened}
          (hreads : ReadsOn receiver.env [] [] read (traffic.events ++ unread) opened)
          (hpulls : unread.count .pull = 0) (hflows : traffic.Flows receiver.env)
          (hleads : traffic.Leads (opened = none ∧ unread = [])) :
          receiver.RefusesOnDisk bad registry p front ∨
            receiver.MissesOnDisk bad registry p front := by
        subst hfront
        by_cases hrejects : traffic.Rejects receiver.env true registry (some [])
        · exact Or.inl (.failed more hreads hflows hleads hrejects)
        · have hless : more.length < n := by
            have hpos := List.length_pos_iff.mpr hread
            rw [← hn, List.length_append]
            omega
          exact (ih _ hless (traffic.reads receiver.env registry p []).1
            (traffic.reads receiver.env registry p []).2 more rfl).imp
            (.next hreads hpulls hflows hleads) (.next hreads hpulls hflows hleads hrejects)
      obtain ⟨read, more, events, opened, hfront, hreads, hopened⟩ :=
        readsOn_cases receiver.env [] [] front
      obtain ⟨traffic, hflows, rfl⟩ := exists_traffic receiver.env events
      rcases traffic.within_or_leads hflows with hwithin | ⟨first, rest, hevents, hfirst, hne, hleads⟩
      · by_cases hrejects : traffic.Rejects receiver.env true registry none
        · rw [hfront]
          exact Or.inl (.rejected more hreads hflows hwithin hrejects)
        rcases hopened with rfl | ⟨frames, blocks, rfl, rfl | ⟨b, rest, e, rfl, hturn⟩⟩
        · rcases hwithin.plain_or_leads with hplain | hleads
          · rw [hfront]
            cases hstored : (traffic.reads receiver.env registry p []).2.stored receiver.env registry
                none with
            | error e => exact Or.inl (.misfits more hreads hflows hplain hstored)
            | ok stored => exact Or.inr (.ended more hreads hflows hplain hrejects hstored)
          · rw [← List.append_nil traffic.events] at hreads
            exact hnext hfront hreads.ne_nil hreads rfl hflows (hleads _ ⟨rfl, rfl⟩)
        · rw [List.append_nil] at hfront
          subst hfront
          by_cases hmarker : bad.chunk.isSome = true ∧ traffic.Unheld receiver.env registry
          · exact Or.inl (.marker hreads hflows hwithin hmarker.1 hmarker.2)
          · refine Or.inr (.passed hreads hflows hwithin hrejects ?_)
            rw [not_and_or, Option.not_isSome_iff_eq_none] at hmarker
            exact hmarker
        · rw [hfront]
          exact Or.inl (.crossed rest hreads hflows hwithin hturn)
      · rw [hevents] at hreads
        obtain ⟨read', more', unread, opened', rfl, hread, hreads', hpulls⟩ := hreads.split hne
        rw [List.append_assoc] at hfront
        exact hnext hfront hread hreads' hpulls hfirst (hleads _)

theorem refusesInMemory_or (registry : Registry) (b : Buffer) (field : Field) (front : List Buffer) :
    receiver.RefusesInMemory registry b field front ∨
      receiver.MissesInMemory registry b field front := by
  obtain ⟨read, more, events, opened, hfront, hreads, hopened⟩ :=
    readsOn_cases receiver.env [] [] front
  cases hgathered : gathered receiver.env registry none events with
  | error e => exact Or.inl ⟨read, more, events, opened, hfront, hreads, Or.inl ⟨e, hgathered⟩⟩
  | ok content =>
      rcases hopened with rfl | ⟨frames, blocks, rfl, rfl | ⟨c, rest, e, rfl, hturn⟩⟩
      · cases hresult : receiver.turn b field content with
        | error e =>
            exact Or.inl ⟨read, more, events, none, hfront, hreads,
              Or.inr (Or.inl ⟨rfl, content, e, hgathered, hresult⟩)⟩
        | ok result =>
            refine Or.inr ⟨read, more, events, none, content, hfront, hreads, hgathered, ?_⟩
            rw [if_pos rfl]
            exact ⟨result, hresult⟩
      · refine Or.inr ⟨read, [], events, _, content, hfront, hreads, hgathered, ?_⟩
        rw [if_neg (Option.some_ne_none _)]
      · exact Or.inl ⟨read, _, events, _, hfront, hreads,
          Or.inr (Or.inr ⟨frames, blocks, c, rest, e, rfl, rfl, hturn⟩)⟩

theorem refuses_or_misses (registry : Registry) (front : List Buffer) (bad : Buffer) :
    receiver.Refuses registry front bad ∨ receiver.Misses registry front bad := by
  by_cases hrefuses : receiver.Refuses registry front bad
  · exact Or.inl hrefuses
  · unfold Receiver.Refuses at hrefuses
    push Not at hrefuses
    obtain ⟨-, b, hb, field, hfield, hkind⟩ := hrefuses
    refine Or.inr ⟨b, hb, field, hfield, ?_⟩
    split at hkind
    · rename_i hmode
      rw [if_pos hmode]
      exact (refusesInMemory_or registry b field front).resolve_left hkind
    · rename_i hmode
      rw [if_neg hmode]
      exact (refusesOnDisk_or bad registry {} front).resolve_left hkind

-- A marker that cannot be resolved is refused, whatever stands behind it, where the message is
-- refused by the time it has been read; and where it is not, the marker is missed.
theorem parseFromBuffer_refuses (receiver : Receiver) (w w' : World) (earlier : List Result)
    (front : List Buffer) (bad : Buffer) (rest : List Buffer)
    (hreaches : receiver.Reaches { w with requests :=
      if receiver.control then controlReader receiver.env w.requests else w.requests } earlier w')
    (hstream : w'.requests = front ++ bad :: rest) (hbad : bad.Unresolvable receiver.env) :
    let outcome := parseFromBuffer receiver w
    (receiver.Refuses w'.registry front bad →
        outcome.1.raised.isSome = true ∧ outcome.1.items <+: earlier) ∧
      (receiver.Refuses w'.registry front bad ∨ receiver.Misses w'.registry front bad) := by
  refine ⟨fun hrefuses => ?_, refuses_or_misses w'.registry front bad⟩
  simp only [parseFromBuffer]
  by_cases hcorrect : receiver.isCorrect = true
  · rw [if_pos hcorrect]
    obtain ⟨b, hb, hfirst⟩ : ∃ b, w'.requests.head? = some b ∧ (front ++ [bad]).head? = some b := by
      rw [hstream]
      cases front with
      | nil => exact ⟨bad, rfl, rfl⟩
      | cons b _ => exact ⟨b, rfl, rfl⟩
    have hkind := hrefuses.resolve_left (by rw [hcorrect]; exact Bool.noConfusion)
    exact mainLoop_refuses hreaches hb (receive_refuses hstream hbad (hkind b hfirst)) _
  · rw [if_neg hcorrect]
    exact ⟨rfl, List.nil_prefix⟩

end Messages

-- Bytes for the disk.
def Receiver.onDisk : Receiver where
  env := { Enviroment.sample with skipWbpGeneration := true }
  parse := fun _ _ => none
  indices := [(1, .bytes)]
  partitionsMessageMode := .inl false

-- A marker whose hash says nothing about its type.
def untyped (chunk : Option Bytes) : Buffer :=
  { chunk, block := some { hashes := [{ type := [], value := [7] }], previousLengthsPosition := [] } }

def headBuffer : Buffer := { head := some ⟨1⟩ }

-- The marker comes to be read for the disk; for the memory the blocks cross in front of it.
theorem parseFromBuffer_refuses_sample :
    let opening := marker .sample [1, 6] []
    let other := marker .sample [1, 7] []
    let memory : Receiver := { Receiver.onDisk with partitionsMessageMode := .inl true }
    let outcome := parseFromBuffer .onDisk { registry := [], requests := [headBuffer,
      chunkBuffer none [5], separatorBuffer, headBuffer, opening, untyped (some [6]), opening,
      separatorBuffer] }
    let crossed := parseFromBuffer memory { registry := [], requests := [headBuffer, opening, other,
      opening, untyped (some [6]), separatorBuffer] }
    (outcome.1.raised.isSome = true ∧
        outcome.1.items <+: [.dir { dir := 1, stored := .file [5], type := .bytes }]) ∧
      crossed.1.raised.isSome = true ∧ crossed.1.items <+: [] := by
  intro opening other memory
  constructor
  · refine (parseFromBuffer_refuses .onDisk { registry := [], requests := [headBuffer,
        chunkBuffer none [5], separatorBuffer, headBuffer, opening, untyped (some [6]), opening,
        separatorBuffer] }
      { registry := [], cache := [1, 0], next := 2, requests := [headBuffer, opening,
        untyped (some [6]), opening, separatorBuffer] }
      _ [headBuffer, opening] (untyped (some [6])) [opening, separatorBuffer]
      (@Receiver.Reaches.turn .onDisk _ _ _ headBuffer
        (some (.dir { dir := 1, stored := .file [5], type := .bytes })) [] rfl rfl (.start _))
      rfl ⟨_, rfl, by decide⟩).1 (Or.inr fun b hb field hfield => ?_)
    obtain rfl : headBuffer = b := Option.some.inj hb
    rw [if_neg (by decide)]
    have hreads : ReadsOn Receiver.onDisk.env [] [] [headBuffer, opening]
        ([.pull] ++ ([.pull, .ask [1, 6], .buffer opening] ++ [])) (some ([opening], [[1, 6]])) :=
      .turn rfl (.turn rfl (.nil _ _))
    exact @Receiver.RefusesOnDisk.marker .onDisk _ _ _ _
      (.event .pull (.event .pull (.event (.ask [1, 6]) (.inside [1, 6] opening .nil)))) _ _ hreads
      ⟨fun _ => Event.noConfusion, fun _ => Event.noConfusion, fun _ => Event.noConfusion, rfl,
        avoids_nil _, trivial⟩
      trivial rfl ⟨rfl, trivial⟩
  · refine (parseFromBuffer_refuses memory _ _ [] [headBuffer, opening, other, opening]
      (untyped (some [6])) [separatorBuffer] (.start _) rfl ⟨_, rfl, by decide⟩).1
      (Or.inr fun b hb field hfield => ?_)
    obtain rfl : headBuffer = b := Option.some.inj hb
    rw [if_pos (by decide)]
    have hreads : ReadsOn memory.env [] [] [headBuffer, opening, other]
        ([.pull] ++ ([.pull, .ask [1, 6], .buffer opening] ++
          ([.pull, .ask [1, 7], .buffer other] ++ []))) (some ([other, opening], [[1, 7], [1, 6]])) :=
      .turn rfl (.turn rfl (.turn rfl (.nil _ _)))
    exact ⟨[headBuffer, opening, other], [opening], _, _, rfl, hreads,
      Or.inr (Or.inr ⟨_, _, opening, [], .intersection, rfl, rfl, rfl⟩)⟩

-- Where the message is for the memory, where the marker carries no chunk, and in a block that
-- is held, it is not refused: the message is yielded.
theorem parseFromBuffer_overlooks :
    let opening := marker .sample [1, 6] []
    let memory : Receiver := { Receiver.onDisk with partitionsMessageMode := .inl true }
    let directory : Directory :=
      { parts := [(1, []), (2, [])], json := [.part 1, .block [1, 6] [], .part 2] }
    (parseFromBuffer memory { registry := [], requests := [headBuffer, chunkBuffer none [5],
        untyped (some [6]), separatorBuffer] }).1 = .pure [.value (.bytes [5, 6])] ∧
      (parseFromBuffer .onDisk { registry := [], requests := [headBuffer, chunkBuffer none [5],
        untyped none, chunkBuffer none [6], separatorBuffer] }).1 =
          .pure [.dir { dir := 1, stored := .file [5], type := .bytes },
            .dir { dir := 3, stored := .file [6], type := .bytes }] ∧
      (parseFromBuffer .onDisk { registry := [([1, 6], .file [6])], requests := [headBuffer,
        opening, untyped (some [8]), opening, separatorBuffer] }).1 =
          .pure [.dir { dir := 0, stored := .dir directory, type := .bytes }] := by
  decide

end BeeRpc
