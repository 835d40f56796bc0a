import BeeRpc.Absorb

namespace BeeRpc

open Wire Effect

-- A stream of buffers that comes to its end inside blocks: what was before each block that is
-- still open, and what has arrived in the innermost one.
inductive Cut where
  | last (forest : Forest)
  | inside (before : Forest) (id : BlockId) (positions : List Nat) (inner : Cut)
  deriving Repr, DecidableEq

namespace Cut

variable (env : Enviroment)

def stream : Cut → List Buffer
  | last forest => forest.stream env
  | inside before id positions inner =>
      before.stream env ++ marker env id positions :: inner.stream

def events : Cut → List Event
  | last forest => forest.events env
  | inside before id positions inner =>
      before.events env ++ .pull :: .ask id :: .buffer (marker env id positions) :: inner.events

-- What the receiver makes of it: every open block ends where the stream does.
def close : Cut → Forest
  | last forest => forest
  | inside before id positions inner => before.append (.block id positions inner.close .nil)

def Nests (blocks : List BlockId) : Cut → Prop
  | last forest => forest.Nests blocks
  | inside before id _ inner =>
      before.Nests blocks ∧ id ≠ [] ∧ id ∉ blocks ∧ blocks.length < MAX_BLOCK_NESTING ∧
        inner.Nests (id :: blocks)

-- It is the stream of a forest up to there.
def Begins : Cut → Forest → Prop
  | last forest, whole => ∃ more, whole = forest.append more
  | inside before id positions inner, whole =>
      ∃ body more, whole = before.append (.block id positions body more) ∧ inner.Begins body

-- With more in front of it.
def behind (before : Forest) : Cut → Cut
  | last forest => last (before.append forest)
  | inside nearer id positions inner => inside (before.append nearer) id positions inner

end Cut

section

variable {env : Enviroment}

theorem append_stream (forest more : Forest) :
    (forest.append more).stream env = forest.stream env ++ more.stream env := by
  induction forest with
  | nil => rfl
  | chunk skip content rest ih => exact congrArg (chunkBuffer skip content :: ·) ih
  | block id positions body rest ihBody ihRest =>
      simp only [Forest.append, Forest.stream, ihRest, List.append_assoc, List.cons_append]

theorem append_nests (forest more : Forest) (blocks : List BlockId) :
    (forest.append more).Nests blocks ↔ forest.Nests blocks ∧ more.Nests blocks := by
  induction forest with
  | nil => exact ⟨fun h => ⟨trivial, h⟩, And.right⟩
  | chunk skip content rest ih => exact ih
  | block id positions body rest ihBody ihRest =>
      simp only [Forest.append, Forest.Nests, ihRest, and_assoc]

theorem append_assoc (forest more last : Forest) :
    (forest.append more).append last = forest.append (more.append last) := by
  induction forest with
  | nil => rfl
  | chunk skip content rest ih => rw [Forest.append, Forest.append, ih, Forest.append]
  | block id positions body rest ihBody ihRest =>
      rw [Forest.append, Forest.append, ihRest, Forest.append]

theorem append_nil (forest : Forest) : forest.append .nil = forest := by
  induction forest with
  | nil => rfl
  | chunk skip content rest ih => rw [Forest.append, ih]
  | block id positions body rest ihBody ihRest => rw [Forest.append, ihRest]

theorem behind_stream (before : Forest) (cut : Cut) :
    (cut.behind before).stream env = before.stream env ++ cut.stream env := by
  cases cut with
  | last forest => exact append_stream before forest
  | inside nearer id positions inner =>
      simp only [Cut.behind, Cut.stream, append_stream, List.append_assoc]

theorem behind_close (before : Forest) (cut : Cut) :
    (cut.behind before).close = before.append cut.close := by
  cases cut with
  | last forest => rfl
  | inside nearer id positions inner => exact append_assoc ..

theorem behind_nests {before : Forest} {cut : Cut} {blocks : List BlockId}
    (hbefore : before.Nests blocks) (hcut : cut.Nests blocks) : (cut.behind before).Nests blocks := by
  cases cut with
  | last forest => exact (append_nests ..).mpr ⟨hbefore, hcut⟩
  | inside nearer id positions inner =>
      obtain ⟨hnearer, hinner⟩ := hcut
      exact ⟨(append_nests ..).mpr ⟨hbefore, hnearer⟩, hinner⟩

theorem close_nests {cut : Cut} {blocks : List BlockId} (h : cut.Nests blocks) :
    cut.close.Nests blocks := by
  induction cut generalizing blocks with
  | last forest => exact h
  | inside before id positions inner ih =>
      obtain ⟨hbefore, hid, hnew, hdepth, hinner⟩ := h
      exact (append_nests ..).mpr ⟨hbefore, hid, hnew, hdepth, ih hinner, trivial⟩

theorem prefix_append_cases {α : Type} {pre left right : List α} (h : pre <+: left ++ right) :
    pre <+: left ∨ ∃ behind, behind <+: right ∧ pre = left ++ behind := by
  rcases List.prefix_or_prefix_of_prefix h (List.prefix_append left right) with h' | ⟨behind, rfl⟩
  · exact Or.inl h'
  · exact Or.inr ⟨behind, (List.prefix_append_right_inj left).mp h, rfl⟩

theorem append_blocks (forest more : Forest) :
    (forest.append more).blocks = forest.blocks ++ more.blocks := by
  induction forest with
  | nil => rfl
  | chunk skip content rest ih => exact ih
  | block id positions body rest _ ih => exact congrArg ((id, positions) :: ·) ih

theorem behind_begins (before : Forest) {cut : Cut} {forest : Forest} (h : cut.Begins forest) :
    (cut.behind before).Begins (before.append forest) := by
  cases cut with
  | last nearer =>
      obtain ⟨more, rfl⟩ := h
      exact ⟨more, (append_assoc ..).symm⟩
  | inside nearer id positions inner =>
      obtain ⟨body, more, rfl, hinner⟩ := h
      exact ⟨body, more, (append_assoc ..).symm, hinner⟩

theorem Cut.Begins.nests {cut : Cut} {forest : Forest} {blocks : List BlockId}
    (h : cut.Begins forest) (hnests : forest.Nests blocks) : cut.Nests blocks := by
  induction cut generalizing forest blocks with
  | last nearer =>
      obtain ⟨more, rfl⟩ := h
      exact ((append_nests ..).mp hnests).1
  | inside before id positions inner ih =>
      obtain ⟨body, more, rfl, hinner⟩ := h
      obtain ⟨hbefore, hid, hnew, hdepth, hbody, -⟩ := (append_nests ..).mp hnests
      exact ⟨hbefore, hid, hnew, hdepth, ih hinner hbody⟩

-- Wherever a stream is cut between two of its buffers.
theorem exists_begins (forest : Forest) {pre : List Buffer} (h : pre <+: forest.stream env) :
    ∃ cut : Cut, cut.Begins forest ∧ cut.stream env = pre := by
  induction forest generalizing pre with
  | nil => exact ⟨.last .nil, ⟨.nil, rfl⟩, (List.prefix_nil.mp h).symm⟩
  | chunk skip content rest ih =>
      rcases List.prefix_cons_iff.mp h with rfl | ⟨behind, rfl, hbehind⟩
      · exact ⟨.last .nil, ⟨_, rfl⟩, rfl⟩
      · obtain ⟨cut, hcut, rfl⟩ := ih hbehind
        refine ⟨cut.behind (.chunk skip content .nil),
          behind_begins (.chunk skip content .nil) hcut, ?_⟩
        rw [behind_stream]
        rfl
  | block id positions body rest ihBody ihRest =>
      rcases List.prefix_cons_iff.mp h with rfl | ⟨behind, rfl, hbehind⟩
      · exact ⟨.last .nil, ⟨_, rfl⟩, rfl⟩
      rcases prefix_append_cases hbehind with hinside | ⟨behind, hafter, rfl⟩
      · obtain ⟨inner, hinner, rfl⟩ := ihBody hinside
        exact ⟨.inside .nil id positions inner, ⟨body, rest, rfl, hinner⟩, rfl⟩
      · rcases List.prefix_cons_iff.mp hafter with rfl | ⟨last, rfl, hlast⟩
        · refine ⟨.inside .nil id positions (.last body),
            ⟨body, rest, rfl, .nil, (append_nil body).symm⟩, ?_⟩
          rw [List.append_nil]
          rfl
        · obtain ⟨cut, hcut, rfl⟩ := ihRest hlast
          refine ⟨cut.behind (.block id positions body .nil),
            behind_begins (.block id positions body .nil) hcut, ?_⟩
          simp only [behind_stream, Forest.stream, List.cons_append, List.append_assoc,
            List.nil_append]

theorem exists_cut (forest : Forest) {blocks : List BlockId} (hnests : forest.Nests blocks)
    {pre : List Buffer} (h : pre <+: forest.stream env) :
    ∃ cut : Cut, cut.Nests blocks ∧ cut.stream env = pre := by
  obtain ⟨cut, hbegins, hstream⟩ := exists_begins forest h
  exact ⟨cut, hbegins.nests hnests, hstream⟩

end

section

variable {env : Enviroment} (control : Bool)

theorem absorb_append (k : Known) (p : Part) (forest more : Forest) :
    absorb env control k p (forest.append more) =
      (absorb env control k p forest).bind fun result =>
        absorb env control result.1 result.2 more := by
  induction forest generalizing k p with
  | nil => rfl
  | chunk skip content rest ih => exact ih k (p.chunk content)
  | block id positions body rest ihBody ihRest =>
      rw [Forest.append, absorb_block, absorb_block]
      cases absorbBody env control (k.ask control id) id body with
      | error e => rfl
      | ok result => exact ihRest result.1 _

theorem drain_forest_append (k : Known) (forest more : Forest) :
    k.drain control (forest.append more) = (k.drain control forest).drain control more := by
  induction forest generalizing k with
  | nil => rfl
  | chunk skip content rest ih => exact ih k
  | block id positions body rest ihBody ihRest => exact ihRest _

theorem passOn_marker (id : BlockId) (positions : List Nat) :
    passOn (marker env id positions) = ([], false) := rfl

-- Inside a block it is passed on to its end, where every frame ends with nothing more.
theorem parserIterator_cut (hd : env.Digests) (cut : Cut) (frames : Frames)
    (blocks : List BlockId) (hframes : frames ≠ []) (hblocks : blocks ≠ [])
    (houtermost : ∀ outermost ∈ frames.getLast?, (passOn outermost).1 = [])
    (hnests : cut.Nests blocks) :
    parserIterator env frames blocks (cut.stream env) = .pure (cut.events env) := by
  induction cut generalizing frames blocks with
  | last forest =>
      obtain ⟨outermost, hlast⟩ : ∃ outermost, frames.getLast? = some outermost :=
        Option.isSome_iff_exists.mp (by simpa using hframes)
      have hend : parserIterator env frames blocks [] = .pure [] := by
        simp only [parserIterator, hlast, Option.map_some, Option.getD_some]
        rw [houtermost outermost hlast]
      have h := parserIterator_forest hd forest frames blocks [] hframes hblocks hnests
      rw [List.append_nil, hend, pure_andThen_pure, List.append_nil] at h
      exact h
  | inside before id positions inner ih =>
      obtain ⟨hbefore, hid, hnew, hdepth, hinner⟩ := hnests
      have hlast : ∀ outermost ∈ (marker env id positions :: frames).getLast?,
          (passOn outermost).1 = [] := by
        rw [List.getLast?_cons_of_ne_nil hframes]
        exact houtermost
      simp only [Cut.stream, Cut.events]
      rw [parserIterator_forest hd before frames blocks _ hframes hblocks hbefore,
        parserIterator_open hd frames blocks positions _ hid hnew hdepth,
        ih _ _ (List.cons_ne_nil _ _) (List.cons_ne_nil _ _) hlast hinner, andThen_andThen, pure_andThen_pure,
        List.append_assoc]
      rfl

theorem parserIterator_topCut (hd : env.Digests) {id : BlockId} (positions : List Nat) (cut : Cut)
    (hid : id ≠ []) (hcut : cut.Nests [id]) :
    parserIterator env [] [] (marker env id positions :: cut.stream env) =
      .pure (.pull :: .ask id :: .buffer (marker env id positions) :: cut.events env) := by
  rw [parserIterator_open hd _ _ positions _ hid List.not_mem_nil (by decide),
    parserIterator_cut hd cut _ _ (List.cons_ne_nil _ _) (List.cons_ne_nil _ _) _ hcut]
  · rfl
  · intro outermost h
    rw [List.getLast?_singleton, Option.mem_some_iff] at h
    rw [← h, passOn_marker]

theorem afterAll_cut (cut : Cut) (w : World) :
    (w.afterAll control (cut.events env)).known = w.known.drain control cut.close ∧
      (w.afterAll control (cut.events env)).requests =
        w.requests.drop (cut.stream env).length := by
  induction cut generalizing w with
  | last forest => exact afterAll_forest control forest w
  | inside before id positions inner ih =>
      obtain ⟨hknown, hrequests⟩ := @afterAll_forest env control before w
      generalize hw₁ : w.afterAll control (before.events env) = w₁ at hknown hrequests
      have hall : w.afterAll control ((Cut.inside before id positions inner).events env) =
          ((w₁.after control .pull).after control (.ask id)).afterAll control (inner.events env) := by
        rw [Cut.events, afterAll_append, hw₁]
        rfl
      obtain ⟨hknown', hrequests'⟩ := ih ((w₁.after control .pull).after control (.ask id))
      rw [hall, hknown', hrequests']
      constructor
      · rw [after_known, Cut.close, drain_forest_append, ← hknown]
        rfl
      · rw [after_ask_requests, World.after, hrequests, Cut.stream, List.tail_drop,
          List.drop_drop, List.length_append, List.length_cons]
        congr 1
        omega

theorem Cut.Nests.avoids (hd : env.Digests) {cut : Cut} {blocks : List BlockId}
    (h : cut.Nests blocks) : ∀ id ∈ blocks, Avoids env id (cut.events env) := by
  induction cut generalizing blocks with
  | last forest => exact Forest.Nests.avoids hd h
  | inside before other positions inner ih =>
      obtain ⟨hbefore, -, hnew, -, hinner⟩ := h
      intro id hid b hb
      simp only [Cut.events, List.mem_append, List.mem_cons, reduceCtorEq, false_or] at hb
      rcases hb with hb | hb | hb
      · exact hbefore.avoids hd id hid b hb
      · rw [Event.buffer.inj hb, marker_blockHash hd]
        rintro h
        exact hnew (Option.some.inj h ▸ hid)
      · exact ih hinner id (List.mem_cons_of_mem _ hid) b hb

end

section

variable {env : Enviroment} (control : Bool)

-- At the end of the stream the part at hand is the last one.
theorem resume_nil (hashers : List Bytes) (p : Part) (w : World) :
    resume control env hashers p [] w =
      .ok (p.allParts, ⟨.pure [], p.allJson, feed p.content hashers⟩) w := by
  have hfed : feed p.current (feed p.fed hashers) = feed p.content hashers := feed_feed ..
  rw [← hfed]
  rfl

-- What the loop over the parts makes of a cut is what absorbing the closed forest gives.
def Settles (env : Enviroment) (cut : Cut) : Prop :=
  ∀ (hashers : List Bytes) (p : Part) (w : World), w.Sound env →
    match absorb env control w.known p cut.close with
    | .error failure => Raises (resume control env hashers p (cut.events env)) w failure
    | .ok (k, q) => ∃ w', resume control env hashers p (cut.events env) w =
        .ok (q.allParts, ⟨.pure [], q.allJson, feed q.content hashers⟩) w' ∧
        w'.known = k ∧ w'.requests = w.requests.drop (cut.stream env).length

theorem Settles.reads (hd : env.Digests) {cut : Cut} (hcut : Settles control env cut)
    {id : BlockId} {blocks : List BlockId} (hnests : cut.Nests (id :: blocks)) :
    Reads control env id cut.close (cut.events env) (cut.events env) []
      (cut.stream env).length where
  stop := by
    have h := stopItems_append (hnests.avoids hd id (List.mem_cons_self ..)) []
    rw [List.append_nil] at h
    simp only [stopGenerator, Yielded.pure, h, stopItems, List.append_nil]
  drain w := by
    have h := drain_append control (hnests.avoids hd id (List.mem_cons_self ..)) none [] w
    rw [List.append_nil] at h
    obtain ⟨hknown, hrequests⟩ := @afterAll_cut env control cut w
    exact ⟨_, h, hknown, hrequests⟩
  read := hcut
  avoids := hnests.avoids hd id (List.mem_cons_self ..)
  quiet_le := Nat.le_refl _
  after_le := Nat.zero_le _

theorem resume_cut (hd : env.Digests) (cut : Cut) (blocks : List BlockId)
    (hnests : cut.Nests blocks) : Settles control env cut := by
  induction cut generalizing blocks with
  | last forest =>
      intro hashers p w hw
      have h := resume_forest control hd forest blocks hnests hashers p [] w hw
      rw [List.append_nil] at h
      simp only [Cut.close, Cut.events, Cut.stream]
      split
      · rename_i failure hfailure
        rw [hfailure] at h
        exact h
      · rename_i k q hkq
        rw [hkq] at h
        obtain ⟨w', hw', hknown, hrequests, -⟩ := h
        exact ⟨w', hw'.trans (resume_nil control hashers q w'), hknown, hrequests⟩
  | inside before id positions inner ih =>
      obtain ⟨hbefore, hid, hnew, hdepth, hinner⟩ := hnests
      intro hashers p w hw
      have h := resume_forest control hd before blocks hbefore hashers p
        (.pull :: .ask id :: .buffer (marker env id positions) :: inner.events env) w hw
      simp only [Cut.close, Cut.events, Cut.stream, absorb_append]
      cases habsorb : absorb env control w.known p before with
      | error failure =>
          rw [habsorb] at h
          exact h
      | ok result =>
          obtain ⟨k, q⟩ := result
          rw [habsorb] at h
          obtain ⟨w₁, hw₁, hknown₁, hrequests₁, hkeeps₁⟩ := h
          have hblock := resume_block control hd ((ih _ hinner).reads control hd hinner) hid
            positions hashers q w₁ (hw.keeps hkeeps₁)
          rw [hknown₁] at hblock
          simp only [Except.bind, absorb_block]
          cases hbody : absorbBody env control (k.ask control id) id inner.close with
          | error failure =>
              rw [hbody] at hblock
              exact hblock.of_eq hw₁
          | ok result =>
              obtain ⟨k', content⟩ := result
              rw [hbody] at hblock
              obtain ⟨w', hw', hknown', hrequests', -⟩ := hblock
              refine ⟨w', hw₁.trans (hw'.trans (resume_nil control hashers _ w')), hknown', ?_⟩
              rw [hrequests', hrequests₁, List.drop_drop, List.length_append, List.length_cons]
              congr 1
              omega

end

end BeeRpc
