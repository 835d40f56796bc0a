import BeeRpc.Cut

namespace BeeRpc

open Wire Effect Naming

-- A message in one buffer.
def singleBuffer (head : Head) (content : Bytes) : Buffer :=
  { chunk := some content, head := some head, separator := some true }

-- What a message that begins here has as its content, and what is left of the requests behind
-- it: behind its separator, or nothing where the requests have come to their end, which may be
-- inside a block. The flag says whether its head is still to come.
inductive Carries (env : Enviroment) : Bool → List Buffer → Forest → List Buffer → Prop where
  | separator (more : List Buffer) : Carries env false (separatorBuffer :: more) .nil more
  | ended : Carries env false [] .nil []
  | single (head : Head) (content : Bytes) (more : List Buffer) :
      Carries env true (singleBuffer head content :: more) (.chunk none content .nil) more
  | head (head : Head) {rest : List Buffer} {forest : Forest} {more : List Buffer} :
      Carries env false rest forest more →
      Carries env true ({ head := some head } :: rest) forest more
  | chunk {headed : Bool} (skip : Option Block) (content : Bytes) {rest : List Buffer}
      {forest : Forest} {more : List Buffer} : Carries env headed rest forest more →
      Carries env headed (chunkBuffer skip content :: rest) (.chunk skip content forest) more
  | block {id : BlockId} (positions : List Nat) {body : Forest} {rest : List Buffer}
      {forest : Forest} {more : List Buffer} : id ≠ [] → body.Nests [id] →
      Carries env false rest forest more →
      Carries env false (marker env id positions :: body.stream env ++
        marker env id positions :: rest) (.block id positions body forest) more
  | cut {id : BlockId} (positions : List Nat) {cut : Cut} : id ≠ [] → cut.Nests [id] →
      Carries env false (marker env id positions :: cut.stream env)
        (.block id positions cut.close .nil) []

section

variable {receiver : Receiver}

-- The loop of save_to_dir where it stands at `p`, in the middle of a part.
def dirFrom (receiver : Receiver) (p : Part) : Save (List (Nat × Bytes) × List JsonEntry) := do
  let w ← get
  let stream := parserIterator receiver.env [] [] w.requests
  let file ← saveChunksToFile receiver.control
    (saveChunksToBlock receiver.env receiver.control (stream.items.length + 1)) (some p.current)
    { stream, json := p.json ++ [.part p.index] }
  if file.ended then return (p.parts ++ [(p.index, file.content)], file.reading.json)
  else
    receiver.saveDirParts w.requests.length (p.index + 1) (p.parts ++ [(p.index, file.content)])
      file.reading.json

theorem saveDirParts_start (p : Part) (w : World) (hcurrent : p.current = []) :
    receiver.saveDirParts (w.requests.length + 1) p.index p.parts p.json w =
      dirFrom receiver p w := by
  rw [dirFrom, hcurrent]
  rfl

-- With more fuel it does the same.
theorem dirFrom_eq (p : Part) (w : World) (hw : w.Sound receiver.env) (n fuel : Nat)
    (hn : (parserIterator receiver.env [] [] w.requests).items.length ≤ n)
    (hfuel : w.requests.length ≤ fuel) :
    (saveChunksToFile receiver.control (saveChunksToBlock receiver.env receiver.control n)
        (some p.current) { stream := parserIterator receiver.env [] [] w.requests,
                           json := p.json ++ [.part p.index] } >>= fun file =>
      if file.ended then pure (p.parts ++ [(p.index, file.content)], file.reading.json)
      else receiver.saveDirParts fuel (p.index + 1) (p.parts ++ [(p.index, file.content)])
        file.reading.json) w = dirFrom receiver p w := by
  have hcongr : saveChunksToFile receiver.control
      (saveChunksToBlock receiver.env receiver.control n) (some p.current)
      { stream := parserIterator receiver.env [] [] w.requests, json := p.json ++ [.part p.index] } =
      saveChunksToFile receiver.control
        (saveChunksToBlock receiver.env receiver.control
          ((parserIterator receiver.env [] [] w.requests).items.length + 1)) (some p.current)
        { stream := parserIterator receiver.env [] [] w.requests,
          json := p.json ++ [.part p.index] } := by
    refine saveChunks_congr receiver.control
      (n := (parserIterator receiver.env [] [] w.requests).items.length)
      (fun marker reading hlt => ?_) _ _ _ _ _ (Nat.le_refl _)
    exact saveChunksToBlock_fuel receiver.control _ _ marker reading (by omega) (by omega)
  rw [hcongr, dirFrom, bind_of_ok (m := get) rfl]
  refine Ends.bind_congr (saveFirstPart_requests w hw _ _ _) fun file w' h => ?_
  obtain ⟨hkeeps, hlast, hless⟩ := h
  split
  · rfl
  · rename_i hended
    have hne : w.requests ≠ [] := fun h => hended (hlast h)
    have hless := hless hne
    exact saveDirParts_fuel _ _ _ _ _ w' (hw.keeps hkeeps) (by omega) (by omega)

-- A piece of content outside all blocks.
theorem dirFrom_chunk (p : Part) (skip : Option Block) (content : Bytes) (rest : List Buffer)
    (w : World) (hw : w.Sound receiver.env)
    (hrequests : w.requests = chunkBuffer skip content :: rest) :
    dirFrom receiver p w =
      dirFrom receiver (p.chunk content) (w.after receiver.control .pull) := by
  have hpulled : (w.after receiver.control .pull).requests = rest := by
    rw [World.after, hrequests, List.tail_cons]
  have hkeeps := after_keeps receiver.control .pull w hw
  rw [← dirFrom_eq (p.chunk content) (w.after receiver.control .pull) (hw.keeps hkeeps)
    ((parserIterator receiver.env [] [] w.requests).items.length + 1) w.requests.length
    (by rw [hpulled, hrequests, parserIterator_chunk]; simp; omega)
    (by rw [hpulled, hrequests]; simp)]
  rw [dirFrom, bind_of_ok (m := get) rfl]
  have hitems : parserIterator receiver.env [] [] w.requests =
      ⟨.pull :: .buffer (chunkBuffer skip content) ::
        (parserIterator receiver.env [] [] rest).items,
        (parserIterator receiver.env [] [] rest).raised⟩ := by
    rw [hrequests, parserIterator_chunk]
    rfl
  rw [hitems, hpulled]
  simp only [List.length_cons, saveChunksToFile, Option.getD_some, Part.chunk]
  rfl

-- A buffer that has nothing to pass on.
theorem dirFrom_head (p : Part) (head : Head) (rest : List Buffer) (w : World)
    (hw : w.Sound receiver.env) (hrequests : w.requests = { head := some head } :: rest) :
    dirFrom receiver p w = dirFrom receiver p (w.after receiver.control .pull) := by
  have hpulled : (w.after receiver.control .pull).requests = rest := by
    rw [World.after, hrequests, List.tail_cons]
  have hkeeps := after_keeps receiver.control .pull w hw
  rw [← dirFrom_eq p (w.after receiver.control .pull) (hw.keeps hkeeps)
    ((parserIterator receiver.env [] [] w.requests).items.length + 1) w.requests.length
    (by rw [hpulled, hrequests, parserIterator_head]; simp; omega)
    (by rw [hpulled, hrequests]; simp)]
  rw [dirFrom, bind_of_ok (m := get) rfl]
  have hitems : parserIterator receiver.env [] [] w.requests =
      ⟨.pull :: (parserIterator receiver.env [] [] rest).items,
        (parserIterator receiver.env [] [] rest).raised⟩ := by
    rw [hrequests, parserIterator_head]
    rfl
  rw [hitems, hpulled]
  rfl

-- The part at hand is the last one.
theorem dirFrom_end (p : Part) (items : List Event) (content : Bytes) (w w' : World)
    (hitems : parserIterator receiver.env [] [] w.requests = .pure items)
    (hend : saveChunks receiver.control
      (saveChunksToBlock receiver.env receiver.control (items.length + 1))
      (p.json ++ [.part p.index]) none p.current [] items w =
        .ok ⟨true, p.current ++ content, ⟨.pure [], p.json ++ [.part p.index], []⟩⟩ w') :
    dirFrom receiver p w = .ok ((p.chunk content).allParts, (p.chunk content).allJson) w' := by
  rw [dirFrom, bind_of_ok (m := get) rfl]
  rw [hitems]
  exact (bind_of_ok hend).trans rfl

theorem dirFrom_block (hd : receiver.env.Digests) {id : BlockId} {body : Forest}
    {items quiet : List Event} {n : Nat}
    (h : Reads receiver.control receiver.env id body items quiet [] n) (hid : id ≠ [])
    (positions : List Nat) (p : Part) (w : World) (hw : w.Sound receiver.env)
    (hne : w.requests ≠ [])
    (hitems : parserIterator receiver.env [] [] w.requests =
      .pure (.pull :: .ask id :: .buffer (marker receiver.env id positions) :: items)) :
    match absorbBody receiver.env receiver.control (w.known.ask receiver.control id) id body with
    | .error failure => Raises (dirFrom receiver p) w failure
    | .ok (k, content) => ∃ w', dirFrom receiver p w =
          dirFrom receiver (p.block id positions content) w' ∧
        w'.known = k ∧ w'.requests = w.requests.drop (1 + n) ∧ Keeps receiver.env w w' := by
  have hasked := after_known receiver.control (w.after receiver.control .pull) id
  have hsound₁ := hw.keeps (after_keeps receiver.control .pull w hw)
  have hkeeps₁ := (after_keeps receiver.control .pull w hw).trans
    (after_keeps receiver.control (.ask id) _ hsound₁)
  have hrequests₁ := after_ask_requests receiver.control (w.after receiver.control .pull) id
  generalize hw₁ : (w.after receiver.control .pull).after receiver.control (.ask id) = w₁
    at hasked hkeeps₁ hrequests₁
  have hknown : (w.after receiver.control .pull).known = w.known := rfl
  rw [hknown] at hasked
  have hjson : p.json ++ [.part p.index] ≠ [] := by simp
  have hblock := saveChunksToBlock_reads receiver.control hd h hid positions hjson [] (items.length + 1 + 1 + 1 + 1) (by omega) w₁
    (hw.keeps hkeeps₁)
  rw [hasked] at hblock
  have hrun : dirFrom receiver p w =
      (saveChunksToBlock receiver.env receiver.control (items.length + 1 + 1 + 1 + 1)
        (marker receiver.env id positions) ⟨.pure items, p.json ++ [.part p.index], []⟩ >>=
          fun reading => receiver.saveDirParts w.requests.length (p.index + 1)
            (p.parts ++ [(p.index, p.current)]) reading.json) w₁ := by
    rw [dirFrom, bind_of_ok (m := get) rfl, hitems, ← hw₁]
    simp only [Yielded.pure, List.length_cons]
    generalize saveChunksToBlock receiver.env receiver.control (items.length + 1 + 1 + 1 + 1) =
      saveBlock
    refine Eq.trans (b := ((saveBlock (marker receiver.env id positions)
      ⟨.pure items, p.json ++ [.part p.index], []⟩ >>= fun reading =>
        (pure ⟨false, p.current, reading⟩ : Save SavedFile)) >>= fun file =>
          if file.ended then pure (p.parts ++ [(p.index, file.content)], file.reading.json)
          else receiver.saveDirParts w.requests.length (p.index + 1)
            (p.parts ++ [(p.index, file.content)]) file.reading.json)
      ((w.after receiver.control .pull).after receiver.control (.ask id))) rfl ?_
    rw [bind_assoc]
    rfl
  split
  · rename_i failure hfailure
    rw [hfailure] at hblock
    exact hblock.bind.of_eq hrun
  · rename_i k content hk
    rw [hk] at hblock
    obtain ⟨w', hw', hknown', hrequests'⟩ := hblock
    have hkeeps := hkeeps₁.trans
      (saveChunksToBlock_keeps receiver.control _ _ _ _ w₁ w' (hw.keeps hkeeps₁) hw')
    have hleft : w'.requests = w.requests.drop (1 + n) := by
      rw [hrequests', hrequests₁, World.after, List.drop_tail, Nat.add_comm]
    have hless : w'.requests.length < w.requests.length := by
      have := List.length_pos_iff.mpr hne
      rw [hleft, List.length_drop]
      omega
    refine ⟨w', hrun.trans ((bind_of_ok hw').trans ?_), hknown', hleft, hkeeps⟩
    rw [saveDirParts_fuel _ (w'.requests.length + 1) _ _ _ w' (hw.keeps hkeeps) hless
      (Nat.lt_succ_self _), ← saveDirParts_start _ _ rfl]
    simp only [Part.block, List.append_assoc, List.singleton_append]

theorem part_chunk_nil (p : Part) : p.chunk [] = p := by
  simp [Part.chunk]

-- What a message carries is absorbed, and what is behind it is left.
theorem dirFrom_carries (hd : receiver.env.Digests) {headed : Bool} {requests more : List Buffer}
    {forest : Forest} (h : Carries receiver.env headed requests forest more) (p : Part) (w : World)
    (hw : w.Sound receiver.env) (hrequests : w.requests = requests) :
    match absorb receiver.env receiver.control w.known p forest with
    | .error failure => Raises (dirFrom receiver p) w failure
    | .ok (k, q) => ∃ w', dirFrom receiver p w = .ok (q.allParts, q.allJson) w' ∧
        w'.known = k ∧ w'.requests = more ∧ Keeps receiver.env w w' := by
  induction h generalizing p w with
  | separator more =>
      have h := @dirFrom_end receiver p [.pull] [] w (w.after receiver.control .pull)
        (by rw [hrequests, parserIterator_separator]) (by rw [List.append_nil]; rfl)
      rw [part_chunk_nil] at h
      refine ⟨_, h, rfl, ?_, after_keeps receiver.control .pull w hw⟩
      rw [World.after, hrequests, List.tail_cons]
  | ended =>
      have h := @dirFrom_end receiver p [] [] w w (by rw [hrequests, parserIterator_nil])
        (by rw [List.append_nil]; rfl)
      rw [part_chunk_nil] at h
      exact ⟨w, h, rfl, hrequests, .refl hw.addressed⟩
  | single head content more =>
      have h := @dirFrom_end receiver p
        [.pull, .buffer (singleBuffer head content)] content w (w.after receiver.control .pull)
        (by rw [hrequests]; rfl) rfl
      refine ⟨_, h, rfl, ?_, after_keeps receiver.control .pull w hw⟩
      rw [World.after, hrequests, List.tail_cons]
  | head head hrest ih =>
      have hstep := dirFrom_head p head _ w hw hrequests
      have hkeeps := after_keeps receiver.control .pull w hw
      have h := ih p (w.after receiver.control .pull) (hw.keeps hkeeps)
        (by rw [World.after, hrequests, List.tail_cons])
      rw [show (w.after receiver.control .pull).known = w.known from rfl] at h
      split
      · rename_i failure hfailure
        rw [hfailure] at h
        exact h.of_eq hstep
      · rename_i k q hkq
        rw [hkq] at h
        obtain ⟨w', hw', hknown, hleft, hkeeps'⟩ := h
        exact ⟨w', hstep.trans hw', hknown, hleft, hkeeps.trans hkeeps'⟩
  | chunk skip content hrest ih =>
      have hstep := dirFrom_chunk p skip content _ w hw hrequests
      have hkeeps := after_keeps receiver.control .pull w hw
      have h := ih (p.chunk content) (w.after receiver.control .pull) (hw.keeps hkeeps)
        (by rw [World.after, hrequests, List.tail_cons])
      rw [show (w.after receiver.control .pull).known = w.known from rfl] at h
      simp only [absorb]
      split
      · rename_i failure hfailure
        rw [hfailure] at h
        exact h.of_eq hstep
      · rename_i k q hkq
        rw [hkq] at h
        obtain ⟨w', hw', hknown, hleft, hkeeps'⟩ := h
        exact ⟨w', hstep.trans hw', hknown, hleft, hkeeps.trans hkeeps'⟩
  | @block id positions body rest forest more hid hbody hrest ih =>
      have hreads := (resume_forest receiver.control hd body [id] hbody).reads receiver.control hd
        hbody .outermost
      have hblock := dirFrom_block hd hreads hid positions p w hw (by simp [hrequests])
        (by rw [hrequests, parserIterator_topBlock hd positions body rest hid hbody]; rfl)
      rw [absorb_block]
      cases habsorb : absorbBody receiver.env receiver.control (w.known.ask receiver.control id) id
          body with
      | error failure =>
          rw [habsorb] at hblock
          exact hblock
      | ok result =>
          obtain ⟨k, content⟩ := result
          rw [habsorb] at hblock
          obtain ⟨w₁, hw₁, hknown₁, hleft₁, hkeeps₁⟩ := hblock
          have hrest₁ : w₁.requests = rest := by
            rw [hleft₁, hrequests]
            simp [Nat.add_comm 1]
          have h := ih (p.block id positions content) w₁ (hw.keeps hkeeps₁) hrest₁
          rw [hknown₁] at h
          simp only [Except.bind]
          split
          · rename_i failure hfailure
            rw [hfailure] at h
            exact h.of_eq hw₁
          · rename_i k' q hkq
            rw [hkq] at h
            obtain ⟨w', hw', hknown, hleft, hkeeps'⟩ := h
            exact ⟨w', hw₁.trans hw', hknown, hleft, hkeeps₁.trans hkeeps'⟩
  | @cut id positions cut hid hcut =>
      have hreads := (resume_cut receiver.control hd cut [id] hcut).reads receiver.control hd hcut
      have hblock := dirFrom_block hd hreads hid positions p w hw (by simp [hrequests])
        (by rw [hrequests, parserIterator_topCut hd positions cut hid hcut])
      rw [absorb_block]
      cases habsorb : absorbBody receiver.env receiver.control (w.known.ask receiver.control id) id
          cut.close with
      | error failure =>
          rw [habsorb] at hblock
          exact hblock
      | ok result =>
          obtain ⟨k, content⟩ := result
          rw [habsorb] at hblock
          obtain ⟨w₁, hw₁, hknown₁, hleft₁, hkeeps₁⟩ := hblock
          have hnone : w₁.requests = [] := by
            rw [hleft₁, hrequests]
            simp [Nat.add_comm 1]
          have h := @dirFrom_end receiver (p.block id positions content) [] [] w₁ w₁
            (by rw [hnone, parserIterator_nil]) (by rw [List.append_nil]; rfl)
          rw [part_chunk_nil] at h
          exact ⟨w₁, hw₁.trans h, hknown₁, hnone, hkeeps₁⟩

-- What save_to_dir makes of a message.
def absorbDir (env : Enviroment) (control : Bool) (k : Known) (forest : Forest) :
    Except Failure (Known × Stored) := do
  let (k, q) ← absorb env control k {} forest
  match q.stored env k.registry none with
  | .error e => .error ⟨e, k.asked⟩
  | .ok stored => .ok (k, stored)

-- save_to_dir once all parts are written.
def finishDir (receiver : Receiver) (dirname : Nat) :
    List (Nat × Bytes) × List JsonEntry → Save (Nat × Stored)
  | (parts, json) => do
      if json.length < 2 then
        let filename ← fresh
        Receiver.addCache filename
        return (filename, .file ((parts.lookup 1).getD []))
      else if receiver.env.skipWbpGeneration then return (dirname, .dir { parts, json })
      else
        let w ← get
        match generateWbpFile receiver.env w.registry { parts, json } with
        | .ok directory => return (dirname, .dir directory)
        | .error e => throw e

theorem finishDir_stored (dirname : Nat) (p : Part) (w : World) (hw : w.Sound receiver.env) :
    match p.stored receiver.env w.registry none with
    | .error e => finishDir receiver dirname (p.allParts, p.allJson) w = .error e w
    | .ok stored => ∃ path w', finishDir receiver dirname (p.allParts, p.allJson) w =
          .ok (path, stored) w' ∧
        w'.known = w.known ∧ w'.requests = w.requests ∧ Keeps receiver.env w w' := by
  simp only [Part.stored, finishDir]
  by_cases hlen : p.allJson.length < 2
  · simp only [if_pos hlen]
    refine ⟨w.next, { w with next := w.next + 1, cache := w.next :: w.cache }, rfl, rfl, rfl, ?_⟩
    exact ⟨.refl _, hw.addressed, rfl, Nat.le_succ _, List.suffix_refl _⟩
  · simp only [if_neg hlen]
    by_cases hskip : receiver.env.skipWbpGeneration = true
    · simp only [if_pos hskip]
      exact ⟨dirname, w, rfl, rfl, rfl, .refl hw.addressed⟩
    · simp only [if_neg hskip]
      rw [bind_of_ok (m := get) rfl]
      cases generateWbpFile receiver.env w.registry { parts := p.allParts, json := p.allJson } with
      | error e => rfl
      | ok directory => exact ⟨dirname, w, rfl, rfl, rfl, .refl hw.addressed⟩

-- save_to_dir makes its directory, and leaves none behind where the loop over the parts raises.
def World.made (w : World) : World := { w with next := w.next + 1, cache := w.next :: w.cache }

theorem made_keeps (w : World) (hw : w.Sound receiver.env) : Keeps receiver.env w w.made :=
  ⟨.refl _, hw.addressed, rfl, Nat.le_succ _, List.suffix_refl _⟩

theorem saveToDir_start (w : World) : receiver.saveToDir w = (tryCatch
    (receiver.saveDirParts (w.made.requests.length + 1) 1 [] []) (fun e => do
      Receiver.removeCache w.next
      throw e) >>= finishDir receiver w.next) w.made := rfl

theorem saveToDir_raises {w : World} {failure : Failure}
    (h : Raises (dirFrom receiver {}) w.made failure) : Raises receiver.saveToDir w failure := by
  obtain ⟨w', hw', hasked⟩ := h
  rw [← saveDirParts_start _ _ rfl] at hw'
  exact ⟨_, (saveToDir_start w).trans (bind_of_error (tryCatch_of_error hw')), hasked⟩

theorem saveToDir_parts {w w' : World} {q : Part} (hw : w.Sound receiver.env)
    (h : dirFrom receiver {} w.made = .ok (q.allParts, q.allJson) w')
    (hkeeps : Keeps receiver.env w.made w') :
    match q.stored receiver.env w'.registry none with
    | .error e => receiver.saveToDir w = .error e w'
    | .ok stored => ∃ path w'', receiver.saveToDir w = .ok (path, stored) w'' ∧
        w''.known = w'.known ∧ w''.requests = w'.requests ∧ Keeps receiver.env w w'' := by
  rw [← saveDirParts_start _ _ rfl] at h
  have hkeeps' := (made_keeps w hw).trans hkeeps
  have hend := (saveToDir_start w).trans (bind_of_ok (tryCatch_of_ok h))
  have hfinish := @finishDir_stored receiver w.next q w' (hw.keeps hkeeps')
  cases hstored : q.stored receiver.env w'.registry none with
  | error e =>
      rw [hstored] at hfinish
      exact hend.trans hfinish
  | ok stored =>
      rw [hstored] at hfinish
      obtain ⟨path, w'', hw'', hknown, hmore, hkeeps''⟩ := hfinish
      exact ⟨path, w'', hend.trans hw'', hknown, hmore, hkeeps'.trans hkeeps''⟩

theorem saveToDir_carries (hd : receiver.env.Digests) {headed : Bool} {forest : Forest}
    {more : List Buffer} (w : World) (hw : w.Sound receiver.env)
    (h : Carries receiver.env headed w.requests forest more) :
    match absorbDir receiver.env receiver.control w.known forest with
    | .error failure => Raises receiver.saveToDir w failure
    | .ok (k, stored) => ∃ path w', receiver.saveToDir w = .ok (path, stored) w' ∧
        w'.known = k ∧ w'.requests = more ∧ Keeps receiver.env w w' := by
  have hparts := dirFrom_carries hd h {} w.made (hw.keeps (made_keeps w hw)) rfl
  have hknown₀ : w.made.known = w.known := rfl
  rw [hknown₀] at hparts
  rw [absorbDir]
  cases habsorb : absorb receiver.env receiver.control w.known {} forest with
  | error failure =>
      rw [habsorb] at hparts
      exact saveToDir_raises hparts
  | ok result =>
      obtain ⟨k, q⟩ := result
      rw [habsorb] at hparts
      obtain ⟨w', hw', hknown, hmore, hkeeps⟩ := hparts
      have hsaved := saveToDir_parts hw hw' hkeeps
      have hregistry : w'.registry = k.registry := congrArg Known.registry hknown
      rw [hregistry] at hsaved
      simp only [ok_bind]
      cases hstored : q.stored receiver.env k.registry none with
      | error e =>
          rw [hstored] at hsaved
          exact ⟨w', hsaved, congrArg Known.asked hknown⟩
      | ok stored =>
          rw [hstored] at hsaved
          obtain ⟨path, w'', hw'', hknown', hmore', hkeeps'⟩ := hsaved
          exact ⟨path, w'', hw'', hknown'.trans hknown, hmore'.trans hmore, hkeeps'⟩

namespace Receiver

variable (receiver : Receiver)

def defaultIndex : Int := if (receiver.allIndices.lookup 1).isSome then 1 else 0

-- The index that decides how the message that begins with this buffer is read.
def indexOf (b : Buffer) : Int := (b.head.map (·.index)).getD receiver.defaultIndex

-- What is yielded where the message turns out to be empty.
def onEmpty (b : Buffer) : Except Err (Option Result) :=
  match b.head with
  | some _ =>
      match receiver.allIndices.lookup 1 with
      | none => .error .keyError
      | some field => .ok (emptyResult field)
  | none => .ok (emptyResult ((receiver.allIndices.lookup receiver.defaultIndex).getD .bytes))

-- The loop over the requests, with as much fuel as it takes.
def run (w : World) : Yielded Result × World := receiver.mainLoop (w.requests.length + 1) w

end Receiver

def saveOf {α : Type} : Except Err α → Save α
  | .ok a => pure a
  | .error e => throw e

theorem receive_eq (b : Buffer) {field : Field}
    (hfield : receiver.allIndices.lookup (receiver.indexOf b) = some field) :
    receiver.receive b =
      receiver.iterateMessage field (receiver.mode (receiver.indexOf b)) >>= fun result =>
        match result with
        | some result => pure (some result)
        | none => saveOf (receiver.onEmpty b) := by
  simp only [Receiver.receive, Receiver.indexOf, Receiver.onEmpty] at hfield ⊢
  cases hhead : b.head with
  | none =>
      simp only [hhead, Option.map_none, Option.getD_none] at hfield ⊢
      simp only [Receiver.defaultIndex] at hfield ⊢
      simp only [hfield, Option.getD_some]
      exact congrArg (_ >>= ·) (funext fun result => by cases result <;> rfl)
  | some head =>
      simp only [hhead, Option.map_some, Option.getD_some] at hfield ⊢
      simp only [hfield]
      cases receiver.allIndices.lookup 1 with
      | none => exact congrArg (_ >>= ·) (funext fun result => by cases result <;> rfl)
      | some first => exact congrArg (_ >>= ·) (funext fun result => by cases result <;> rfl)

theorem receive_unknown (b : Buffer) (w : World)
    (hfield : receiver.allIndices.lookup (receiver.indexOf b) = none) :
    ∃ e, receiver.receive b w = .error e w := by
  cases hhead : b.head with
  | none =>
      exfalso
      simp only [Receiver.indexOf, hhead, Option.map_none, Option.getD_none,
        Receiver.defaultIndex] at hfield
      split at hfield
      · rename_i h
        simp [hfield] at h
      · rw [Receiver.allIndices, Dict.lookup_set, if_pos rfl] at hfield
        cases hfield
  | some head =>
      simp only [Receiver.indexOf, hhead, Option.map_some, Option.getD_some] at hfield
      refine ⟨.headIndex head.index, ?_⟩
      simp only [Receiver.receive, hhead, hfield]
      rfl

-- A message for the disk.
theorem receive_dir (hd : receiver.env.Digests) {headed : Bool} {forest : Forest}
    {more : List Buffer} (b : Buffer) {field : Field} (w : World) (hw : w.Sound receiver.env)
    (h : Carries receiver.env headed w.requests forest more)
    (hfield : receiver.allIndices.lookup (receiver.indexOf b) = some field)
    (hmode : receiver.mode (receiver.indexOf b) = false) :
    match absorbDir receiver.env receiver.control w.known forest with
    | .error failure => Raises (receiver.receive b) w failure
    | .ok (k, stored) => ∃ path w', receiver.receive b w =
          .ok (some (.dir { dir := path, stored, type := field })) w' ∧
        w'.known = k ∧ w'.requests = more ∧ Keeps receiver.env w w' := by
  have hsave := saveToDir_carries hd w hw h
  have hreceive : receiver.receive b = receiver.saveToDir >>= fun saved =>
      pure (some (.dir { dir := saved.1, stored := saved.2, type := field })) := by
    rw [receive_eq b hfield, hmode]
    simp only [Receiver.iterateMessage, Bool.false_eq_true, if_false, bind_assoc, pure_bind]
  split
  · rename_i failure hfailure
    rw [hfailure] at hsave
    rw [hreceive]
    exact hsave.bind
  · rename_i k stored hk
    rw [hk] at hsave
    obtain ⟨path, w', hw', hknown, hmore, hkeeps⟩ := hsave
    refine ⟨path, w', ?_, hknown, hmore, hkeeps⟩
    rw [hreceive]
    exact (bind_of_ok hw').trans rfl

theorem run_nil (w : World) (h : w.requests = []) : receiver.run w = (.pure [], w) := by
  simp only [Receiver.run, Receiver.mainLoop, h]

theorem run_cons (w : World) (hw : w.Sound receiver.env) {b : Buffer} {rest : List Buffer}
    (h : w.requests = b :: rest) :
    receiver.run w =
      match receiver.receive b w with
      | .error e w' => (.raise e, w')
      | .ok result w' =>
          ((Yielded.pure result.toList).andThen (receiver.run w').1, (receiver.run w').2) := by
  have hne : w.requests ≠ [] := by simp [h]
  have hkeeps := @receive_maintains receiver b w hw
  have hrequests := @receive_requests receiver b w hw hne
  rw [Receiver.run, Receiver.mainLoop]
  simp only [h]
  cases hreceive : receiver.receive b w with
  | error e w' => rfl
  | ok result w' =>
      have hless := hrequests.of_ok hreceive
      have hkept := hkeeps.of_ok hreceive
      simp only
      rw [← h, mainLoop_fuel w.requests.length (w'.requests.length + 1) w' (hw.keeps hkept) hless
        (Nat.lt_succ_self _)]
      rfl

-- The turns of the loop over the requests, with what they have yielded.
inductive Receiver.Reaches (receiver : Receiver) : World → List Result → World → Prop where
  | start (w : World) : receiver.Reaches w [] w
  | turn {w w' w'' : World} {b : Buffer} {result : Option Result} {results : List Result} :
      w.requests.head? = some b → receiver.receive b w = .ok result w' →
      receiver.Reaches w' results w'' → receiver.Reaches w (result.toList ++ results) w''

theorem Receiver.Reaches.length {w w' : World} {results : List Result}
    (h : receiver.Reaches w results w') (hw : w.Sound receiver.env) :
    (w' = w ∧ results = []) ∨ w'.requests.length < w.requests.length := by
  induction h with
  | start w => exact Or.inl ⟨rfl, rfl⟩
  | @turn w w₁ w' b result results hb hreceive _ ih =>
      have hne : w.requests ≠ [] := by
        intro hnil
        rw [hnil] at hb
        cases hb
      have hless := (@receive_requests receiver b w hw hne).of_ok hreceive
      have hkeeps := (@receive_maintains receiver b w hw).of_ok hreceive
      rcases ih (hw.keeps hkeeps) with ⟨rfl, -⟩ | hrest
      · exact Or.inr hless
      · exact Or.inr (hrest.trans hless)

-- The loop goes on from there.
theorem Receiver.Reaches.run {w w' : World} {results : List Result}
    (h : receiver.Reaches w results w') (hw : w.Sound receiver.env) :
    receiver.run w = ((Yielded.pure results).andThen (receiver.run w').1, (receiver.run w').2) := by
  induction h with
  | start w => rfl
  | @turn w w₁ w' b result results hb hreceive _ ih =>
      obtain ⟨rest, hrequests⟩ := List.head?_eq_some_iff.mp hb
      have hkeeps := (@receive_maintains receiver b w hw).of_ok hreceive
      rw [run_cons w hw hrequests, hreceive]
      simp only
      rw [ih (hw.keeps hkeeps), andThen_andThen]

theorem Receiver.Reaches.trans {w w' w'' : World} {left right : List Result}
    (h : receiver.Reaches w left w') (h' : receiver.Reaches w' right w'') :
    receiver.Reaches w (left ++ right) w'' := by
  induction h with
  | start w => exact h'
  | @turn w w₁ w' b result results hb hreceive _ ih =>
      rw [List.append_assoc]
      exact .turn hb hreceive (ih h')

-- There is one way to go on.
theorem Receiver.Reaches.linear {w w₁ w₂ : World} {left right : List Result}
    (h : receiver.Reaches w left w₁) (h' : receiver.Reaches w right w₂) (hw : w.Sound receiver.env)
    (hlength : w₂.requests.length ≤ w₁.requests.length) :
    ∃ more, right = left ++ more ∧ receiver.Reaches w₁ more w₂ := by
  induction h generalizing right with
  | start w => exact ⟨right, rfl, h'⟩
  | @turn w w' w₁ b result results hb hreceive hrest ih =>
      have hne : w.requests ≠ [] := by
        intro hnil
        rw [hnil] at hb
        cases hb
      have hless := (@receive_requests receiver b w hw hne).of_ok hreceive
      have hkeeps := (@receive_maintains receiver b w hw).of_ok hreceive
      have hle : w₁.requests.length ≤ w'.requests.length := by
        rcases hrest.length (hw.keeps hkeeps) with ⟨rfl, -⟩ | h
        · exact Nat.le_refl _
        · exact Nat.le_of_lt h
      cases h' with
      | start => omega
      | turn hb' hreceive' hrest' =>
          obtain rfl := Option.some.inj (hb.symm.trans hb')
          rw [hreceive] at hreceive'
          obtain ⟨rfl, rfl⟩ := EStateM.Result.ok.inj hreceive'
          obtain ⟨more, rfl, hmore⟩ := ih hrest' (hw.keeps hkeeps) hlength
          exact ⟨more, (List.append_assoc ..).symm, hmore⟩

theorem Receiver.Reaches.raises {w w' w'' : World} {results : List Result} {b : Buffer} {e : Err}
    (h : receiver.Reaches w results w') (hw : w.Sound receiver.env)
    (hsound : w'.Sound receiver.env) (hb : w'.requests.head? = some b)
    (hraises : receiver.receive b w' = .error e w'') :
    (receiver.run w).1 = ⟨results, some e⟩ := by
  obtain ⟨rest, hrequests⟩ := List.head?_eq_some_iff.mp hb
  have hlast := run_cons w' hsound hrequests
  rw [hraises] at hlast
  rw [h.run hw, hlast]
  simp only [Yielded.andThen, Yielded.pure, Yielded.raise, List.append_nil]

end

end BeeRpc
