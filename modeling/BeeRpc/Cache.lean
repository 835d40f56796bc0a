import BeeRpc.Arrival
import BeeRpc.Effect.Stays

namespace BeeRpc

open Wire Effect

-- Nothing has come to the cache directory or gone from it.
def CacheKept (w w' : World) : Prop := w'.cache = w.cache ∧ w.next ≤ w'.next

instance : IsPreorder World CacheKept where
  refl _ := ⟨rfl, Nat.le_refl _⟩
  trans _ _ _ h h' := ⟨h'.1.trans h.1, h.2.trans h'.2⟩

section Writers

variable {env : Enviroment} (control : Bool)

theorem after_cache (event : Event) (w : World) : CacheKept w (w.after control event) := by
  cases event with
  | ask id =>
      unfold World.after World.signalBlockBufferStream
      by_cases hask : (control && w.registry.blockExists id) = true
      · simp only [if_pos hask]
        by_cases hasked : id ∈ w.asked
        · rw [if_pos hasked]
          exact refl_of CacheKept w
        · rw [if_neg hasked]
          exact ⟨rfl, Nat.le_refl _⟩
      · simp only [if_neg hask]
        exact refl_of CacheKept w
  | pull => exact ⟨rfl, Nat.le_refl _⟩
  | change => exact ⟨rfl, Nat.le_refl _⟩
  | buffer b => exact ⟨rfl, Nat.le_refl _⟩

theorem perform_cache (event : Event) : Stays CacheKept (event.perform control) :=
  .modifyGet (after_cache control event)

theorem drain_cache (id : BlockId) (raised : Option Err) (items : List Event) :
    Stays CacheKept (drain env control id raised items) := by
  induction items with
  | nil =>
      cases raised with
      | some e => exact .throw e
      | none => exact .pure _
  | cons event rest ih =>
      cases event with
      | buffer b =>
          unfold drain
          split
          · exact .pure _
          · exact ih
      | pull => exact (perform_cache control _).bind fun _ => ih
      | change => exact (perform_cache control _).bind fun _ => ih
      | ask other => exact (perform_cache control _).bind fun _ => ih

variable {saveBlock : Buffer → Reading → Save Reading}

theorem saveChunks_cache (hblock : ∀ b reading, Stays CacheKept (saveBlock b reading))
    (json : List JsonEntry) (raised : Option Err) (items : List Event) (content : Bytes)
    (hashers : List Bytes) :
    Stays CacheKept (saveChunks control saveBlock json raised content hashers items) := by
  induction items generalizing content hashers with
  | nil =>
      cases raised with
      | some e => exact .throw e
      | none => exact .pure _
  | cons event rest ih =>
      cases event with
      | buffer b =>
          unfold saveChunks
          split
          · exact (hblock b _).bind fun _ => .pure _
          · exact ih _ _
      | pull => exact (perform_cache control _).bind fun _ => ih _ _
      | change => exact (perform_cache control _).bind fun _ => ih _ _
      | ask other => exact (perform_cache control _).bind fun _ => ih _ _

theorem savePartsLoop_cache (hblock : ∀ b reading, Stays CacheKept (saveBlock b reading))
    (fuel : Nat) (prev : Option Bytes) (index : Nat) (parts : List (Nat × Bytes))
    (reading : Reading) :
    Stays CacheKept (savePartsLoop control saveBlock fuel prev index parts reading) := by
  induction fuel generalizing prev index parts reading with
  | zero => exact .throw _
  | succ fuel ih =>
      refine .bind (saveChunks_cache control hblock _ _ _ _ _) fun file => ?_
      split
      · exact .pure _
      · exact ih _ _ _ _

theorem scratch_cache (path : Nat × Bool) :
    Stays CacheKept (addScratch path) ∧ Stays CacheKept (removeScratch path) :=
  ⟨.modifyGet fun _ => ⟨rfl, Nat.le_refl _⟩, .modifyGet fun _ => ⟨rfl, Nat.le_refl _⟩⟩

theorem makedirs_cache (tmp : Nat) : Stays CacheKept (makedirs tmp) :=
  .modifyGet fun _ => ⟨rfl, Nat.le_refl _⟩

theorem fresh_cache : Stays CacheKept fresh := .modifyGet fun _ => ⟨rfl, Nat.le_succ _⟩

theorem makeReady_cache (marker : Buffer) (tmp : Nat) (parts : List (Nat × Bytes))
    (json : List JsonEntry) : Stays CacheKept (makeReady env marker tmp parts json) := by
  unfold makeReady
  split
  · exact (scratch_cache _).1.bind fun _ => (scratch_cache _).2.bind fun _ => .pure _
  · split
    · exact .pure _
    · refine .bind .get fun w => ?_
      split
      · exact .pure _
      · exact .throw _

theorem publish_cache (id : BlockId) (ready : Nat × Bool) (stored : Stored) :
    Stays CacheKept (publish id ready stored) := by
  refine .bind .get fun w => ?_
  split
  · exact (scratch_cache _).2
  · exact (scratch_cache _).2.bind fun _ => .modifyGet fun _ => ⟨rfl, Nat.le_refl _⟩

theorem saveBlockContent_cache (hblock : ∀ b reading, Stays CacheKept (saveBlock b reading))
    (marker : Buffer) (id : BlockId) (stream : Yielded Event) (hashers : List Bytes) :
    Stays CacheKept (saveBlockContent env control saveBlock marker id stream hashers) := by
  refine fresh_cache.bind fun tmp => (makedirs_cache _).bind fun _ => .tryCatch ?_ fun e => ?_
  · refine (savePartsLoop_cache control hblock _ _ _ _ _).bind fun result => ?_
    obtain ⟨parts, reading⟩ := result
    simp only [finishBlock]
    split
    · exact .throw _
    · exact (makeReady_cache _ _ _ _).bind fun _ => (publish_cache _ _ _).bind fun _ => .pure _
  · exact (scratch_cache _).2.bind fun _ => (scratch_cache _).2.bind fun _ => .throw e

theorem saveChunksToBlock_cache (fuel : Nat) : ∀ marker reading,
    Stays CacheKept (saveChunksToBlock env control fuel marker reading) := by
  induction fuel with
  | zero => exact fun _ _ => .throw _
  | succ fuel ih =>
      intro marker reading
      simp only [saveChunksToBlock]
      split
      · exact .throw _
      · refine .bind .get fun w => ?_
        split
        · refine (drain_cache control _ _ _).bind fun stream => ?_
          split
          · exact .pure _
          · refine .bind .get fun w => ?_
            split
            · exact .throw _
            · exact .pure _
        · exact (saveBlockContent_cache control ih _ _ _ _).bind fun _ => .pure _

end Writers

section Receive

variable {receiver : Receiver}

theorem messageLoop_cache (raised : Option Err) (items : List Event) (inBlock : Option BlockId)
    (allBuffer : Bytes) :
    Stays CacheKept (receiver.messageLoop raised items inBlock allBuffer) := by
  induction items generalizing inBlock allBuffer with
  | nil =>
      cases raised with
      | some e => exact .throw e
      | none => exact .pure _
  | cons event rest ih =>
      cases event with
      | buffer b =>
          simp only [Receiver.messageLoop]
          repeat' split
          · exact ih _ _
          · exact ih _ _
          · exact ih _ _
          · exact ih _ _
          · exact .throw _
          · refine .bind .get fun w => ?_
            split
            · split
              · exact .throw _
              · exact ih _ _
            · exact ih _ _
      | pull => exact (perform_cache _ _).bind fun _ => ih _ _
      | change => exact (perform_cache _ _).bind fun _ => ih _ _
      | ask id => exact (perform_cache _ _).bind fun _ => ih _ _

theorem parseMessage_cache (field : Field) : Stays CacheKept (receiver.parseMessage field) := by
  refine .bind .get fun w => (messageLoop_cache _ _ _ _).bind fun allBuffer => ?_
  split
  · exact .pure _
  · split
    · exact .pure _
    · exact .throw _

theorem saveDirParts_cache (fuel index : Nat) (parts : List (Nat × Bytes)) (json : List JsonEntry) :
    Stays CacheKept (receiver.saveDirParts fuel index parts json) := by
  induction fuel generalizing index parts json with
  | zero => exact .throw _
  | succ fuel ih =>
      refine .bind .get fun w =>
        .bind (saveChunks_cache _ (saveChunksToBlock_cache _ _) _ _ _ _ _) fun file => ?_
      split
      · exact .pure _
      · exact ih _ _ _

end Receive

section Turn

variable {env : Enviroment} (control : Bool)

theorem ends_trivial {α : Type} (m : Save α) (w : World) :
    Ends m w (fun _ _ => True) fun _ _ => True := by
  unfold Ends
  split <;> trivial

-- A block adds to the `_.json` around it, and takes nothing away.
theorem saveChunksToBlock_json (fuel : Nat) (marker : Buffer) (reading : Reading) (w : World) :
    Ends (saveChunksToBlock env control fuel marker reading) w
      (fun reading' _ => reading.json.length ≤ reading'.json.length) fun _ _ => True := by
  cases fuel with
  | zero => exact trivial
  | succ fuel =>
      simp only [saveChunksToBlock]
      split
      · exact trivial
      · rename_i id positions hmarker
        have hlonger : reading.json.length ≤
            (if reading.json = [] then [] else reading.json ++ [.block id positions]).length := by
          by_cases hnil : reading.json = []
          · rw [hnil]
            exact Nat.zero_le _
          · rw [if_neg hnil, List.length_append]
            omega
        simp only [ends_bind, ends_get]
        by_cases hexists : w.registry.blockExists id = true
        · rw [if_pos hexists]
          refine Ends.bind (ends_trivial _ _) fun stream w' _ => ?_
          by_cases hhashers : reading.hashers = []
          · rw [if_pos hhashers]
            exact hlonger
          · rw [if_neg hhashers]
            simp only [ends_bind, ends_get]
            split
            · exact trivial
            · exact hlonger
        · rw [if_neg hexists]
          exact Ends.bind (ends_trivial _ _) fun hashers w' _ => hlonger

-- What is read has no block in it.
def Plain (items : List Event) : Prop := ∀ b, Event.buffer b ∈ items → b.block = none

theorem plain_cons {event : Event} {items : List Event} (hevent : ∀ b, event ≠ .buffer b) :
    Plain (event :: items) ↔ Plain items := by
  constructor
  · exact fun h b hb => h b (List.mem_cons_of_mem _ hb)
  · intro h b hb
    rcases List.mem_cons.mp hb with heq | hb
    · exact absurd heq.symm (hevent b)
    · exact h b hb

-- A file that ends with what it is read from has met no block, and one that does not has.
theorem saveChunks_json (fuel : Nat) (json : List JsonEntry) (raised : Option Err)
    (items : List Event) (content : Bytes) (hashers : List Bytes) (w : World) :
    Ends (saveChunks control (saveChunksToBlock env control fuel) json raised content hashers items)
      w (fun file _ => json.length ≤ file.reading.json.length ∧
        (file.ended = true → file.reading.json = json) ∧
        (file.ended = true ↔ raised = none ∧ Plain items))
      fun _ _ => ¬ (raised = none ∧ Plain items) := by
  induction items generalizing content hashers w with
  | nil =>
      cases raised with
      | some e => exact fun h => Option.some_ne_none e h.1
      | none => exact ⟨Nat.le_refl _, fun _ => rfl, fun _ => ⟨rfl, fun b hb => by cases hb⟩, fun _ => rfl⟩
  | cons event rest ih =>
      have hstep : (∀ b, event ≠ .buffer b) → Ends (event.perform control >>= fun _ =>
          saveChunks control (saveChunksToBlock env control fuel) json raised content hashers rest) w
          (fun file _ => json.length ≤ file.reading.json.length ∧
            (file.ended = true → file.reading.json = json) ∧
            (file.ended = true ↔ raised = none ∧ Plain (event :: rest)))
          fun _ _ => ¬ (raised = none ∧ Plain (event :: rest)) := by
        intro hevent
        rw [plain_cons hevent]
        exact ends_bind.mpr (ih content hashers (w.after control event))
      cases event with
      | buffer b =>
          unfold saveChunks
          by_cases hblock : b.block.isSome = true
          · have hnot : ¬ (raised = none ∧ Plain (.buffer b :: rest)) := by
              rintro ⟨-, hplain⟩
              rw [hplain b (List.mem_cons_self ..)] at hblock
              cases hblock
            rw [if_pos hblock]
            refine Ends.bind ((saveChunksToBlock_json control fuel b _ w).mono (fun _ _ h => h)
              fun _ _ _ => hnot) fun reading w' h => ?_
            refine ⟨h, fun hended => ?_, fun hended => ?_, fun hplain => absurd hplain hnot⟩
            · cases hended
            · cases hended
          · have hnone : b.block = none := by simpa using hblock
            have hplain : Plain (.buffer b :: rest) ↔ Plain rest := by
              refine ⟨fun h c hc => h c (List.mem_cons_of_mem _ hc), fun h c hc => ?_⟩
              rcases List.mem_cons.mp hc with heq | hc
              · rw [Event.buffer.inj heq, hnone]
              · exact h c hc
            rw [if_neg hblock, hplain]
            exact ih _ _ w
      | pull => exact hstep fun b => Event.noConfusion
      | change => exact hstep fun b => Event.noConfusion
      | ask id => exact hstep fun b => Event.noConfusion

end Turn

namespace Receiver

variable (receiver : Receiver)

-- The message that begins here ends without a block, so that it is saved as one file.
def Blockless (w : World) : Prop :=
  (parserIterator receiver.env [] [] w.requests).raised = none ∧
    Plain (parserIterator receiver.env [] [] w.requests).items

-- save_to_dir has made its directory.
def withDir (w : World) : World := { w with next := w.next + 1, cache := w.next :: w.cache }

-- The message that begins here is saved with metadata that generate_wbp_file rejects.
def Rejected (w : World) : Prop :=
  ∃ parts json w' e,
    receiver.saveDirParts (w.requests.length + 1) 1 [] [] (withDir w) = .ok (parts, json) w' ∧
      2 ≤ json.length ∧ receiver.env.skipWbpGeneration = false ∧
      generateWbpFile receiver.env w'.registry { parts, json } = .error e

-- The message whose first buffer this is goes to the cache directory.
def SavesDir (b : Buffer) : Prop :=
  receiver.mode (receiver.indexOf b) = false ∧
    ∀ head, b.head = some head → (receiver.allIndices.lookup head.index).isSome = true

-- The turn that begins here leaves a directory behind that no result names.
def LeavesBehind (w : World) : Prop :=
  ∃ b, w.requests.head? = some b ∧ receiver.SavesDir b ∧
    (receiver.Blockless w ∨ receiver.Rejected w)

-- The worlds that the turns of the loop over the requests begin in.
def turns : Nat → World → List World
  | 0, _ => []
  | fuel + 1, w =>
      match w.requests with
      | [] => []
      | b :: _ =>
          match receiver.receive b w with
          | .error _ _ => [w]
          | .ok _ w' => w :: turns fuel w'

end Receiver

-- The worlds that the messages of a run of parse_from_buffer begin in.
def Receiver.messages (receiver : Receiver) (w : World) : List World :=
  if receiver.isCorrect then
    let requests := if receiver.control then controlReader receiver.env w.requests else w.requests
    receiver.turns (requests.length + 1) { w with requests }
  else []

section Turn

variable {receiver : Receiver}

theorem saveDirParts_longer (fuel index : Nat) (parts : List (Nat × Bytes)) (json : List JsonEntry)
    (w : World) :
    Ends (receiver.saveDirParts fuel index parts json) w
      (fun saved _ => json.length < saved.2.length) fun _ _ => True := by
  induction fuel generalizing index parts json w with
  | zero => exact trivial
  | succ fuel ih =>
      simp only [Receiver.saveDirParts, ends_bind, ends_get]
      refine (saveChunks_json receiver.control _ _ _ _ _ _ w).mono (fun file w' h => ?_)
        fun _ _ _ => trivial
      have hlonger : json.length < file.reading.json.length := by
        have h := h.1
        rw [List.length_append, List.length_singleton] at h
        omega
      split
      · exact hlonger
      · refine (ih _ _ _ w').mono (fun saved _ h' => ?_) fun _ _ h' => h'
        exact hlonger.trans h'

-- A message is saved as one file exactly if no block is met in it.
theorem saveDirParts_blockless (fuel : Nat) (w : World) :
    Ends (receiver.saveDirParts (fuel + 1) 1 [] []) w
      (fun saved _ => saved.2.length < 2 ↔ receiver.Blockless w)
      fun _ _ => ¬ receiver.Blockless w := by
  simp only [Receiver.saveDirParts, ends_bind, ends_get]
  refine (saveChunks_json receiver.control _ _ _ _ _ _ w).mono (fun file w' h => ?_)
    fun _ _ h => h
  obtain ⟨hlength, hsame, hended⟩ := h
  by_cases hend : file.ended = true
  · rw [if_pos hend]
    refine ⟨fun _ => hended.mp hend, fun _ => ?_⟩
    show file.reading.json.length < 2
    rw [hsame hend]
    exact Nat.lt_succ_self 1
  · rw [if_neg hend]
    have hnot : ¬ receiver.Blockless w := fun h => hend (hended.mpr h)
    refine (saveDirParts_longer _ _ _ _ w').mono (fun saved _ h => ?_) fun _ _ _ => hnot
    have hlonger : 2 ≤ saved.2.length := Nat.lt_of_le_of_lt hlength h
    exact ⟨fun hshort => absurd hshort (by omega), fun h => absurd h hnot⟩

theorem filter_cache {cache : List Nat} {path : Nat} (hcache : ∀ other ∈ cache, other < path) :
    (path :: cache).filter (· ≠ path) = cache := by
  rw [List.filter_cons_of_neg (by simp), List.filter_eq_self]
  intro other hother
  simpa using Nat.ne_of_lt (hcache other hother)

-- What save_to_dir leaves in the cache directory, whichever way it ends.
theorem saveToDir_cache (w : World) (hcache : ∀ path ∈ w.cache, path < w.next) :
    Ends receiver.saveToDir w
      (fun saved w' => ¬ receiver.Rejected w ∧ saved.1 < w'.next ∧
        ((receiver.Blockless w ∧ w.next < saved.1 ∧ w'.cache = saved.1 :: w.next :: w.cache) ∨
          (¬ receiver.Blockless w ∧ saved.1 = w.next ∧ w'.cache = w.next :: w.cache)))
      fun _ w' => w.next < w'.next ∧ ¬ receiver.Blockless w ∧
        ((receiver.Rejected w ∧ w'.cache = w.next :: w.cache) ∨
          (¬ receiver.Rejected w ∧ w'.cache = w.cache)) := by
  have hkept := @saveDirParts_cache receiver (w.requests.length + 1) 1 [] [] (Receiver.withDir w)
  have hplain := @saveDirParts_blockless receiver w.requests.length (Receiver.withDir w)
  show Ends (tryCatch (receiver.saveDirParts (w.requests.length + 1) 1 [] []) (fun e => do
    Receiver.removeCache w.next
    throw e) >>= finishDir receiver w.next) (Receiver.withDir w) _ _
  rw [ends_bind, ends_tryCatch]
  unfold Ends
  cases hparts : receiver.saveDirParts (w.requests.length + 1) 1 [] [] (Receiver.withDir w) with
  | error e w' =>
      have hnot := hplain.of_error hparts
      obtain ⟨hcache', hnext⟩ := hkept.of_error hparts
      refine ⟨hnext, hnot, Or.inr ⟨?_, ?_⟩⟩
      · rintro ⟨parts, json, w'', e', hok, -⟩
        rw [hparts] at hok
        cases hok
      · show w'.cache.filter (· ≠ w.next) = w.cache
        rw [hcache']
        exact filter_cache hcache
  | ok saved w' =>
      obtain ⟨parts, json⟩ := saved
      have hshort := hplain.of_ok hparts
      obtain ⟨hcache', hnext⟩ := hkept.of_ok hparts
      have hrejected : ∀ e, ¬ json.length < 2 → receiver.env.skipWbpGeneration = false →
          generateWbpFile receiver.env w'.registry { parts, json } = .error e →
          receiver.Rejected w := fun e hlong hskip hraises =>
        ⟨parts, json, w', e, hparts, by omega, hskip, hraises⟩
      have hunrejected : (json.length < 2 ∨ receiver.env.skipWbpGeneration = true ∨
          ∃ directory, generateWbpFile receiver.env w'.registry { parts, json } = .ok directory) →
          ¬ receiver.Rejected w := by
        rintro hwhy ⟨parts', json', w'', e, hok, hlong, hskip, hraises⟩
        rw [hparts] at hok
        obtain ⟨rfl, rfl⟩ := Prod.mk.inj (EStateM.Result.ok.inj hok).1
        obtain rfl := (EStateM.Result.ok.inj hok).2
        rcases hwhy with hlt | hskip' | ⟨directory, hgenerates⟩
        · omega
        · rw [hskip] at hskip'
          cases hskip'
        · rw [hgenerates] at hraises
          cases hraises
      show Ends (finishDir receiver w.next (parts, json)) w' _ _
      unfold finishDir
      by_cases hlen : json.length < 2
      · simp only [if_pos hlen]
        refine ⟨hunrejected (Or.inl hlen), Nat.lt_succ_self _, Or.inl ⟨hshort.mp hlen, hnext, ?_⟩⟩
        exact congrArg (w'.next :: ·) hcache'
      · have hnot : ¬ receiver.Blockless w := fun h => hlen (hshort.mpr h)
        simp only [if_neg hlen]
        by_cases hskip : receiver.env.skipWbpGeneration = true
        · simp only [if_pos hskip]
          exact ⟨hunrejected (Or.inr (Or.inl hskip)), hnext, Or.inr ⟨hnot, rfl, hcache'⟩⟩
        · simp only [if_neg hskip, ends_bind, ends_get]
          cases hgenerate : generateWbpFile receiver.env w'.registry { parts, json } with
          | error e =>
              refine ⟨hnext, hnot, Or.inl ⟨?_, hcache'⟩⟩
              exact hrejected e hlen (by simpa using hskip) hgenerate
          | ok directory =>
              refine ⟨hunrejected (Or.inr (Or.inr ⟨directory, hgenerate⟩)), hnext, Or.inr ?_⟩
              exact ⟨hnot, rfl, hcache'⟩

end Turn

def Result.path? : Result → Option Nat
  | .dir saved => some saved.dir
  | .value _ => none

-- The paths of the Dir results.
def dirsOf (results : List Result) : List Nat := results.filterMap Result.path?

-- What has come to the cache directory: the paths that were given out, and those that
-- were left behind.
structure CacheAfter (w w' : World) (made left : List Nat) : Prop where
  cache : ∀ path, path ∈ w'.cache ↔ path ∈ made ∨ path ∈ left ∨ path ∈ w.cache
  madeNew : ∀ path ∈ made, w.next ≤ path ∧ path < w'.next
  leftNew : ∀ path ∈ left, w.next ≤ path ∧ path < w'.next
  apart : ∀ path ∈ left, path ∉ made
  next : w.next ≤ w'.next

section Run

variable {receiver : Receiver}

theorem dirsOf_append (results more : List Result) :
    dirsOf (results ++ more) = dirsOf results ++ dirsOf more := List.filterMap_append

theorem CacheKept.after {w w' : World} (h : CacheKept w w') : CacheAfter w w' [] [] where
  cache path := by simp [h.1]
  madeNew path hpath := by cases hpath
  leftNew path hpath := by cases hpath
  apart path hpath := by cases hpath
  next := h.2

theorem CacheAfter.trans {w₁ w₂ w₃ : World} {made left made' left' : List Nat}
    (h : CacheAfter w₁ w₂ made left) (h' : CacheAfter w₂ w₃ made' left') :
    CacheAfter w₁ w₃ (made ++ made') (left ++ left') where
  cache path := by
    rw [h'.cache, h.cache, List.mem_append, List.mem_append]
    tauto
  madeNew path hpath := by
    have hnext := h.next
    have hnext' := h'.next
    rcases List.mem_append.mp hpath with hpath | hpath
    · have := h.madeNew path hpath
      omega
    · have := h'.madeNew path hpath
      omega
  leftNew path hpath := by
    have hnext := h.next
    have hnext' := h'.next
    rcases List.mem_append.mp hpath with hpath | hpath
    · have := h.leftNew path hpath
      omega
    · have := h'.leftNew path hpath
      omega
  apart path hpath hmade := by
    rcases List.mem_append.mp hpath with hpath | hpath
    · rcases List.mem_append.mp hmade with hmade | hmade
      · exact h.apart path hpath hmade
      · have hearlier := h.leftNew path hpath
        have hlater := h'.madeNew path hmade
        omega
    · rcases List.mem_append.mp hmade with hmade | hmade
      · have hlater := h'.leftNew path hpath
        have hearlier := h.madeNew path hmade
        omega
      · exact h'.apart path hpath hmade
  next := h.next.trans h'.next

theorem CacheAfter.numbered {w w' : World} {made left : List Nat} (h : CacheAfter w w' made left)
    (hcache : ∀ path ∈ w.cache, path < w.next) : ∀ path ∈ w'.cache, path < w'.next := by
  intro path hpath
  have hnext := h.next
  rcases (h.cache path).mp hpath with hmade | hleft | hold
  · exact (h.madeNew path hmade).2
  · exact (h.leftNew path hleft).2
  · have := hcache path hold
    omega

theorem iterateMessage_memory (field : Field) (w : World) :
    Ends (receiver.iterateMessage field true) w
      (fun result w' => CacheKept w w' ∧ dirsOf result.toList = []) fun _ w' => CacheKept w w' := by
  simp only [Receiver.iterateMessage, if_true, ends_bind]
  refine (parseMessage_cache field w).mono (fun value w' h => ⟨h, ?_⟩) fun _ _ h => h
  cases value <;> rfl

-- What one message that goes to the cache directory leaves there.
theorem iterateMessage_dir (field : Field) (w : World) (hcache : ∀ path ∈ w.cache, path < w.next) :
    Ends (receiver.iterateMessage field false) w
      (fun result w' => ∃ dir left, result = some (.dir dir) ∧ CacheAfter w w' [dir.dir] left ∧
        (left = [] ↔ ¬ (receiver.Blockless w ∨ receiver.Rejected w)))
      fun _ w' => ∃ left, CacheAfter w w' [] left ∧
        (left = [] ↔ ¬ (receiver.Blockless w ∨ receiver.Rejected w)) := by
  simp only [Receiver.iterateMessage, Bool.false_eq_true, if_false, ends_bind]
  refine (saveToDir_cache w hcache).mono (fun saved w' h => ?_) fun _ w' h => ?_
  · obtain ⟨path, stored⟩ := saved
    obtain ⟨hrejected, hpath, hends⟩ := h
    rcases hends with ⟨hplain, hbehind, hcache'⟩ | ⟨hblocks, hsame, hcache'⟩
    · refine ⟨⟨path, stored, field⟩, [w.next], rfl, ⟨fun other => ?_, ?_, ?_, ?_, ?_⟩, ?_⟩
      · simp [hcache']
      · simp only [List.mem_singleton, forall_eq]
        omega
      · simp only [List.mem_singleton, forall_eq]
        omega
      · simp only [List.mem_singleton, forall_eq]
        omega
      · omega
      · simp [hplain]
    · refine ⟨⟨path, stored, field⟩, [], rfl, ⟨fun other => ?_, ?_, ?_, ?_, ?_⟩, ?_⟩
      · simp only at hsame
        simp [hcache', hsame]
      · simp only [List.mem_singleton, forall_eq]
        simp only at hsame hpath
        omega
      · simp
      · simp
      · simp only at hsame hpath
        omega
      · simp [hblocks, hrejected]
  · obtain ⟨hnext, hblocks, hends⟩ := h
    rcases hends with ⟨hrejected, hcache'⟩ | ⟨hrejected, hcache'⟩
    · refine ⟨[w.next], ⟨fun other => ?_, ?_, ?_, ?_, ?_⟩, ?_⟩
      · simp [hcache']
      · simp
      · simp only [List.mem_singleton, forall_eq]
        omega
      · simp
      · omega
      · simp [hrejected]
    · refine ⟨[], ⟨fun other => ?_, ?_, ?_, ?_, ?_⟩, ?_⟩
      · simp [hcache']
      · simp
      · simp
      · simp
      · omega
      · simp [hblocks, hrejected]

theorem leavesBehind_iff {w : World} {b : Buffer} (hb : w.requests.head? = some b) :
    receiver.LeavesBehind w ↔ receiver.SavesDir b ∧ (receiver.Blockless w ∨ receiver.Rejected w) := by
  unfold Receiver.LeavesBehind
  rw [hb]
  simp

-- What a turn does with the outcome of iterate_message.
def resultOr (onEmpty : Save (Option Result)) : Option Result → Save (Option Result)
  | some result => pure (some result)
  | none => onEmpty

-- What the message of one turn leaves in the cache directory, under an index it is allowed.
theorem iterateMessage_cache {b : Buffer} (field : Field) (onEmpty : Save (Option Result))
    (hempty : ∀ w, Ends onEmpty w (fun result w' => w' = w ∧ dirsOf result.toList = [])
      fun _ w' => w' = w)
    (w : World) (hb : w.requests.head? = some b) (hcache : ∀ path ∈ w.cache, path < w.next)
    (hindex : ∀ head, b.head = some head → (receiver.allIndices.lookup head.index).isSome = true) :
    Ends (receiver.iterateMessage field (receiver.mode (receiver.indexOf b)) >>= resultOr onEmpty) w
      (fun result w' => ∃ left, CacheAfter w w' (dirsOf result.toList) left ∧
        (left = [] ↔ ¬ receiver.LeavesBehind w))
      fun _ w' => ∃ left, CacheAfter w w' [] left ∧ (left = [] ↔ ¬ receiver.LeavesBehind w) := by
  rw [leavesBehind_iff hb]
  cases hmode : receiver.mode (receiver.indexOf b) with
  | true =>
      have hnot : ¬ (receiver.SavesDir b ∧ (receiver.Blockless w ∨ receiver.Rejected w)) := by
        rintro ⟨⟨hdir, -⟩, -⟩
        rw [hmode] at hdir
        cases hdir
      refine Ends.bind ((iterateMessage_memory field w).mono (fun _ _ h => h) fun _ w' h => ?_)
        fun result w' h => ?_
      · exact ⟨[], h.after, by simp [hnot]⟩
      · cases result with
        | none =>
            refine (hempty w').mono (fun result' w'' h' => ?_) fun _ w'' h' => ?_
            · obtain ⟨rfl, hdirs⟩ := h'
              rw [hdirs]
              exact ⟨[], h.1.after, by simp [hnot]⟩
            · obtain rfl := h'
              exact ⟨[], h.1.after, by simp [hnot]⟩
        | some result =>
            refine ⟨[], ?_, by simp [hnot]⟩
            show CacheAfter w w' (dirsOf (some result).toList) []
            rw [h.2]
            exact h.1.after
  | false =>
      have hsaves : (receiver.SavesDir b ∧ (receiver.Blockless w ∨ receiver.Rejected w)) ↔
          (receiver.Blockless w ∨ receiver.Rejected w) :=
        ⟨fun h => h.2, fun h => ⟨⟨hmode, hindex⟩, h⟩⟩
      rw [hsaves]
      refine Ends.bind ((iterateMessage_dir field w hcache).mono (fun _ _ h => h) fun _ _ h => h)
        fun result w' h => ?_
      obtain ⟨dir, left, rfl, hafter, hleft⟩ := h
      exact ⟨left, hafter, hleft⟩

theorem emptyResult_dirs (field : Field) : dirsOf (Receiver.emptyResult field).toList = [] := by
  unfold Receiver.emptyResult
  split <;> rfl

theorem receive_cache {b : Buffer} (w : World) (hb : w.requests.head? = some b)
    (hcache : ∀ path ∈ w.cache, path < w.next) :
    Ends (receiver.receive b) w
      (fun result w' => ∃ left, CacheAfter w w' (dirsOf result.toList) left ∧
        (left = [] ↔ ¬ receiver.LeavesBehind w))
      fun _ w' => ∃ left, CacheAfter w w' [] left ∧ (left = [] ↔ ¬ receiver.LeavesBehind w) := by
  unfold Receiver.receive
  cases hhead : b.head with
  | none =>
      have hindexOf : receiver.indexOf b = receiver.defaultIndex := by
        rw [Receiver.indexOf, hhead]
        rfl
      have h := @iterateMessage_cache receiver b
        ((receiver.allIndices.lookup receiver.defaultIndex).getD .bytes)
        (pure (Receiver.emptyResult
          ((receiver.allIndices.lookup receiver.defaultIndex).getD .bytes)))
        (fun w => ⟨rfl, emptyResult_dirs _⟩) w hb hcache
        (fun head h => by rw [hhead] at h; cases h)
      rw [hindexOf] at h
      exact h
  | some head =>
      have hindexOf : receiver.indexOf b = head.index := by
        rw [Receiver.indexOf, hhead]
        rfl
      cases hlookup : receiver.allIndices.lookup head.index with
      | none =>
          have hnot : ¬ receiver.LeavesBehind w := by
            rw [leavesBehind_iff hb]
            rintro ⟨⟨-, hindex⟩, -⟩
            have h := hindex head hhead
            rw [hlookup] at h
            cases h
          simp only [hlookup]
          exact ⟨[], (refl_of CacheKept w).after, by simp [hnot]⟩
      | some field =>
          have hallowed : ∀ other, b.head = some other →
              (receiver.allIndices.lookup other.index).isSome = true := by
            intro other hother
            obtain rfl := Option.some.inj (hhead.symm.trans hother)
            rw [hlookup]
            rfl
          simp only [hlookup]
          rw [← hindexOf]
          cases hone : receiver.allIndices.lookup 1 with
          | none => exact iterateMessage_cache field (throw .keyError) (fun w => rfl) w hb hcache hallowed
          | some one =>
              exact iterateMessage_cache field (pure (Receiver.emptyResult one))
                (fun w => ⟨rfl, emptyResult_dirs one⟩) w hb hcache hallowed

-- What a run leaves in the cache directory besides its results comes from turns that
-- leave something behind.
theorem mainLoop_cache (fuel : Nat) (w : World) (hcache : ∀ path ∈ w.cache, path < w.next) :
    ∃ left, CacheAfter w (receiver.mainLoop fuel w).2 (dirsOf (receiver.mainLoop fuel w).1.items)
        left ∧
      (left = [] ↔ ∀ v ∈ receiver.turns fuel w, ¬ receiver.LeavesBehind v) := by
  induction fuel generalizing w with
  | zero => exact ⟨[], (refl_of CacheKept w).after, fun _ v hv => (by cases hv), fun _ => rfl⟩
  | succ fuel ih =>
      unfold Receiver.mainLoop Receiver.turns
      cases hrequests : w.requests with
      | nil => exact ⟨[], (refl_of CacheKept w).after, fun _ v hv => (by cases hv), fun _ => rfl⟩
      | cons b rest =>
          have hb : w.requests.head? = some b := by rw [hrequests]; rfl
          have hone := @receive_cache receiver b w hb hcache
          simp only
          cases hreceive : receiver.receive b w with
          | error e w' =>
              obtain ⟨left, hafter, hleft⟩ := hone.of_error hreceive
              exact ⟨left, hafter, by simpa using hleft⟩
          | ok result w' =>
              obtain ⟨left, hafter, hleft⟩ := hone.of_ok hreceive
              obtain ⟨left', hafter', hleft'⟩ := ih w' (hafter.numbered hcache)
              refine ⟨left ++ left', ?_, ?_⟩
              · have h := hafter.trans hafter'
                rw [← dirsOf_append] at h
                exact h
              · rw [List.append_eq_nil_iff, hleft, hleft', List.forall_mem_cons]

-- A message without a block: the directory that its one file is moved out of stays.
theorem parseFromBuffer_leaves_directory :
    let receiver : Receiver :=
      { env := .sample, parse := fun _ _ => none, indices := [(1, .bytes)]
        partitionsMessageMode := .inl false }
    let w : World :=
      { registry := [], requests := [{ chunk := some [7] }, { separator := some true }] }
    let after := parseFromBuffer receiver w
    after.1.raised = none ∧ dirsOf after.1.items = [1] ∧ after.2.cache = [1, 0] := by
  decide

-- The cache directory has come to hold the results and nothing else exactly if no message
-- that was saved there is without a block or has metadata that is rejected.
theorem parseFromBuffer_cache (receiver : Receiver) (w : World)
    (hcache : ∀ path ∈ w.cache, path < w.next) :
    (∀ path, (path ∈ (parseFromBuffer receiver w).2.cache ∧ path ∉ w.cache) ↔
      path ∈ dirsOf (parseFromBuffer receiver w).1.items) ↔
      ∀ v ∈ receiver.messages w, ¬ receiver.LeavesBehind v := by
  have hrun : ∃ left, CacheAfter w (parseFromBuffer receiver w).2
      (dirsOf (parseFromBuffer receiver w).1.items) left ∧
      (left = [] ↔ ∀ v ∈ receiver.messages w, ¬ receiver.LeavesBehind v) := by
    unfold parseFromBuffer Receiver.messages
    by_cases hcorrect : receiver.isCorrect = true
    · simp only [if_pos hcorrect]
      generalize (if receiver.control = true then controlReader receiver.env w.requests
        else w.requests) = requests
      obtain ⟨left, hafter, hleft⟩ :=
        @mainLoop_cache receiver (requests.length + 1) { w with requests } hcache
      refine ⟨left, ?_, hleft⟩
      exact ⟨hafter.cache, hafter.madeNew, hafter.leftNew, hafter.apart, hafter.next⟩
    · simp only [if_neg hcorrect]
      exact ⟨[], (refl_of CacheKept w).after, fun _ v hv => (by cases hv), fun _ => rfl⟩
  obtain ⟨left, hafter, hleft⟩ := hrun
  have hold : ∀ path, w.next ≤ path → path ∉ w.cache := by
    intro path hpath hmem
    have := hcache path hmem
    omega
  rw [← hleft]
  constructor
  · intro hall
    rw [List.eq_nil_iff_forall_not_mem]
    intro path hpath
    have hnew := hold path (hafter.leftNew path hpath).1
    have hmem := (hafter.cache path).mpr (Or.inr (Or.inl hpath))
    exact hafter.apart path hpath ((hall path).mp ⟨hmem, hnew⟩)
  · rintro rfl path
    rw [hafter.cache]
    constructor
    · rintro ⟨hmade | hleft | hmem, hnew⟩
      · exact hmade
      · cases hleft
      · exact absurd hmem hnew
    · intro hmade
      exact ⟨Or.inl hmade, hold path (hafter.madeNew path hmade).1⟩

-- A message with a block that is held, beside a path that was there before.
theorem parseFromBuffer_cache_sample :
    let receiver : Receiver :=
      { env := .sample, parse := fun _ _ => none, indices := [(1, .bytes)]
        partitionsMessageMode := .inl false }
    let marker : Buffer := { block := some (blockPointer .sample [1, 5, 6]) }
    let w : World :=
      { registry := .sample
        requests := [marker, { chunk := some [5, 6] }, marker, { separator := some true }]
        cache := [0]
        next := 1 }
    (∀ path, (path ∈ (parseFromBuffer receiver w).2.cache ∧ path ∉ w.cache) ↔
      path ∈ dirsOf (parseFromBuffer receiver w).1.items) ↔
      ∀ v ∈ receiver.messages w, ¬ receiver.LeavesBehind v := by
  intro receiver marker w
  exact parseFromBuffer_cache receiver w (by decide)

end Run

end BeeRpc
