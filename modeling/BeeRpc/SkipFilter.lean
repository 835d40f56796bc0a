import BeeRpc.Sender

namespace BeeRpc

open Wire

-- StreamControl.should_skip, of an enabled control.
def shouldSkip (skip : BlockId → Bool) (blockId : Option BlockId) : Bool := (truthy blockId).any skip

section Places

variable (env : Enviroment)

-- The blocks that are open at a place of a stream, innermost first, each with the place of its
-- start marker.
abbrev OpenBlocks := List (Option BlockId × Nat)

def OpenBlocks.read (i : Nat) (b : Buffer) (openBlocks : OpenBlocks) : OpenBlocks :=
  match b.block with
  | none => openBlocks
  | some block =>
      let blockId := getHashFromBlock env block
      if openBlocks.head?.map Prod.fst = some blockId then openBlocks.tail
      else (blockId, i) :: openBlocks

-- Those behind the first `n` buffers, of which the first is at the place `i`.
def openFrom : Nat → OpenBlocks → List Buffer → Nat → OpenBlocks
  | _, openBlocks, [], _ => openBlocks
  | _, openBlocks, _, 0 => openBlocks
  | i, openBlocks, b :: rest, n + 1 => openFrom (i + 1) (openBlocks.read env i b) rest n

def openAt (items : List Buffer) (n : Nat) : OpenBlocks := openFrom env 0 [] items n

-- Every marker ends the innermost open block or starts one that is not open, and all are ended.
def ProperlyNested : List (Option BlockId) → List Buffer → Prop
  | stack, [] => stack = []
  | stack, b :: rest =>
      match b.block with
      | none => ProperlyNested stack rest
      | some block =>
          let blockId := getHashFromBlock env block
          if stack.head? = some blockId then ProperlyNested stack.tail rest
          else blockId ∉ stack ∧ ProperlyNested (blockId :: stack) rest

-- Which buffers the filter lets through.
def emittedFrom (skips : Nat → BlockId → Bool) : Nat → Skipping → List Buffer → List Bool
  | _, _, [] => []
  | i, s, b :: rest =>
      (!(s.step env (skips i) b).2.isEmpty) ::
        emittedFrom skips (i + 1) (s.step env (skips i) b).1 rest

end Places

section Steps

variable {env : Enviroment} (skip : BlockId → Bool)

theorem step_plain (s : Skipping) {b : Buffer} (hblock : b.block = none) :
    s.step env skip b =
      ({ s with skippingAt := s.skippingAt <|> Skipping.outermostSkipped skip s.stack },
        if (s.skippingAt <|> Skipping.outermostSkipped skip s.stack) = none then [b] else []) := by
  simp only [Skipping.step, hblock]

theorem step_start {s : Skipping} {b : Buffer} {block : Block} (hblock : b.block = some block)
    (hnew : s.stack.head?.map Prod.fst ≠ some (getHashFromBlock env block)) :
    s.step env skip b = Skipping.step.startBlock skip s b (getHashFromBlock env block) := by
  simp only [Skipping.step, hblock]
  cases hs : s.stack with
  | nil => rfl
  | cons entry stack =>
      obtain ⟨top, opened⟩ := entry
      rw [hs] at hnew
      have hne : top ≠ getHashFromBlock env block := fun h => hnew (congrArg some h)
      simp only [if_neg hne]

theorem step_end {b : Buffer} {block : Block} (hblock : b.block = some block)
    (stack : List (Option BlockId × Bool)) (opened : Bool) (skippingAt : Option Nat) :
    Skipping.step env skip ⟨(getHashFromBlock env block, opened) :: stack, skippingAt⟩ b =
      ({ stack, skippingAt := if skippingAt = some (stack.length + 1) then none else skippingAt },
        if opened then [b] else []) := by
  simp only [Skipping.step, hblock, if_true, List.length_cons]

theorem outermostSkipped_eq_none {stack : List (Option BlockId × Bool)} :
    Skipping.outermostSkipped skip stack = none ↔
      ∀ entry ∈ stack, shouldSkip skip entry.1 = false := by
  rw [Skipping.outermostSkipped, Option.map_eq_none_iff, List.findIdx?_eq_none_iff]
  simp only [List.mem_reverse, shouldSkip]

-- The outermost block that is to be skipped, with those around it.
theorem outermostSkipped_eq_some {stack : List (Option BlockId × Bool)} {depth : Nat}
    (h : Skipping.outermostSkipped skip stack = some depth) :
    ∃ inner entry outer, stack = inner ++ entry :: outer ∧ outer.length + 1 = depth ∧
      shouldSkip skip entry.1 = true ∧ ∀ other ∈ outer, shouldSkip skip other.1 = false := by
  obtain ⟨n, hn, rfl⟩ := Option.map_eq_some_iff.mp h
  obtain ⟨hlt, hskip, hbefore⟩ := List.findIdx?_eq_some_iff_getElem.mp hn
  refine ⟨(stack.reverse.drop (n + 1)).reverse, stack.reverse[n], (stack.reverse.take n).reverse,
    ?_, ?_, hskip, fun other hother => ?_⟩
  · rw [← List.reverse_inj, List.reverse_append, List.reverse_cons, List.reverse_reverse,
      List.reverse_reverse, List.append_assoc, List.singleton_append, ← List.drop_eq_getElem_cons,
      List.take_append_drop]
  · rw [List.length_reverse, List.length_take, Nat.min_eq_left hlt.le]
  · obtain ⟨m, hm, rfl⟩ := List.getElem_of_mem (List.mem_reverse.mp hother)
    rw [List.length_take] at hm
    rw [List.getElem_take]
    exact Bool.eq_false_of_not_eq_true (hbefore m (by omega))

end Steps

section Tracks

variable {env : Enviroment}

-- What the loop holds: which start markers were sent, and a block that is to be skipped, where
-- it skips one, around which all were sent. `before` says what was emitted so far.
structure Tracks (skip : BlockId → Bool) (s : Skipping) (openBlocks : OpenBlocks)
    (before : List Bool) : Prop where
  entries : List.Forall₂ (fun entry block => entry.1 = block.1 ∧ before[block.2]? = some entry.2)
    s.stack openBlocks
  cached : match s.skippingAt with
    | none => ∀ entry ∈ s.stack, entry.2 = true
    | some depth => ∃ inner entry outer, s.stack = inner ++ entry :: outer ∧
        outer.length + 1 = depth ∧ shouldSkip skip entry.1 = true ∧
        ∀ other ∈ entry :: outer, other.2 = true

theorem shouldSkip_mono {skip more : BlockId → Bool} (h : ∀ id, skip id = true → more id = true)
    {blockId : Option BlockId} (hskip : shouldSkip skip blockId = true) :
    shouldSkip more blockId = true := by
  obtain ⟨id, hid, hskip⟩ := (Option.any_eq_true _ _).mp hskip
  exact (Option.any_eq_true _ _).mpr ⟨id, hid, h id hskip⟩

namespace Tracks

variable {skip : BlockId → Bool} {s : Skipping} {openBlocks : OpenBlocks} {before : List Bool}

theorem mono {more : BlockId → Bool} (h : Tracks skip s openBlocks before)
    (hmore : ∀ id, skip id = true → more id = true) : Tracks more s openBlocks before := by
  refine ⟨h.entries, ?_⟩
  have hcached := h.cached
  split at hcached
  · exact hcached
  · obtain ⟨inner, entry, outer, hstack, hdepth, hskip, hsent⟩ := hcached
    exact ⟨inner, entry, outer, hstack, hdepth, shouldSkip_mono hmore hskip, hsent⟩

theorem ids (h : Tracks skip s openBlocks before) :
    s.stack.map Prod.fst = openBlocks.map Prod.fst := by
  have hentries := h.entries
  clear h
  generalize s.stack = stack at hentries ⊢
  induction hentries with
  | nil => rfl
  | cons hone _ ih => rw [List.map_cons, List.map_cons, ih, hone.1]

theorem all_iff (h : Tracks skip s openBlocks before) (p : Option BlockId → Prop) :
    (∀ entry ∈ s.stack, p entry.1) ↔ ∀ block ∈ openBlocks, p block.1 := by
  rw [← List.forall_mem_map (f := Prod.fst) (P := p), h.ids, List.forall_mem_map]

-- Where a block is skipped, one that is open is to be skipped.
theorem none_of_clear (h : Tracks skip s openBlocks before)
    (hclear : ∀ block ∈ openBlocks, shouldSkip skip block.1 = false) : s.skippingAt = none := by
  have hcached := h.cached
  split at hcached
  · assumption
  · obtain ⟨inner, entry, outer, hstack, -, hskip, -⟩ := hcached
    have hfalse := (h.all_iff fun id => shouldSkip skip id = false).mpr hclear entry
      (by simp [hstack])
    rw [hfalse] at hskip
    cases hskip

theorem append (h : Tracks skip s openBlocks before) (flag : Bool) :
    Tracks skip s openBlocks (before ++ [flag]) := by
  refine ⟨h.entries.imp fun entry block hblock => ⟨hblock.1, ?_⟩, h.cached⟩
  obtain ⟨hlt, -⟩ := List.getElem?_eq_some_iff.mp hblock.2
  rw [List.getElem?_append_left hlt, hblock.2]

-- The places of the markers are read as the loop reads them.
theorem head_iff (h : Tracks skip s openBlocks before) (blockId : Option BlockId) :
    openBlocks.head?.map Prod.fst = some blockId ↔ s.stack.head?.map Prod.fst = some blockId := by
  rw [← List.head?_map, ← List.head?_map, h.ids]

end Tracks

variable {s : Skipping} {openBlocks : OpenBlocks} {before : List Bool}

theorem tracks_step {skip known : BlockId → Bool} (h : Tracks known s openBlocks before)
    (hgrows : ∀ id, known id = true → skip id = true) (b : Buffer) :
    Tracks skip (s.step env skip b).1 (openBlocks.read env before.length b)
      (before ++ [!(s.step env skip b).2.isEmpty]) := by
  obtain ⟨stack, skippingAt⟩ := s
  have hlater := (h.mono hgrows).append
  cases hblock : b.block with
  | none =>
      have hread : openBlocks.read env before.length b = openBlocks := by
        simp only [OpenBlocks.read, hblock]
      rw [step_plain skip _ hblock, hread]
      refine ⟨(hlater _).entries, ?_⟩
      cases skippingAt with
      | some depth => exact (hlater true).cached
      | none =>
          cases houtermost : Skipping.outermostSkipped skip stack with
          | none => simpa [houtermost] using h.cached
          | some depth =>
              obtain ⟨inner, entry, outer, hstack, hdepth, hskip, -⟩ :=
                outermostSkipped_eq_some skip houtermost
              have hsent : ∀ other ∈ stack, other.2 = true := h.cached
              refine ⟨inner, entry, outer, hstack, hdepth, hskip, fun other hother => ?_⟩
              exact hsent other (hstack ▸ List.mem_append_right _ hother)
  | some block =>
      by_cases hend : openBlocks.head?.map Prod.fst = some (getHashFromBlock env block)
      · have hread : openBlocks.read env before.length b = openBlocks.tail := by
          simp only [OpenBlocks.read, hblock, hend, if_true]
        have htop := (h.head_iff _).mp hend
        obtain ⟨⟨top, opened⟩, outer, rfl⟩ : ∃ entry outer, stack = entry :: outer := by
          cases stack with
          | nil => cases htop
          | cons entry outer => exact ⟨entry, outer, rfl⟩
        obtain rfl : top = getHashFromBlock env block := Option.some.inj htop
        rw [step_end skip hblock, hread]
        refine ⟨?_, ?_⟩
        · have hentries := (hlater (!(if opened = true then [b] else []).isEmpty)).entries
          cases hentries with
          | cons _ hrest => exact hrest
        · have hcached := (h.mono hgrows).cached
          cases skippingAt with
          | none =>
              simp only [reduceCtorEq, if_false]
              exact fun entry hentry => hcached entry (List.mem_cons_of_mem _ hentry)
          | some depth =>
              obtain ⟨inner, entry, around, hstack, hdepth, hskip, hsent⟩ := hcached
              cases inner with
              | nil =>
                  obtain ⟨rfl, rfl⟩ := List.cons.inj hstack
                  simp only [← hdepth, if_true]
                  exact fun other hother => hsent other (List.mem_cons_of_mem _ hother)
              | cons first inner =>
                  have hrest : outer = inner ++ entry :: around := (List.cons.inj hstack).2
                  have hne : ¬ some depth = some (outer.length + 1) := by
                    simp only [hrest, List.length_append, List.length_cons, Option.some.injEq]
                    omega
                  simp only [if_neg hne]
                  exact ⟨inner, entry, around, hrest, hdepth, hskip, hsent⟩
      · have hread : openBlocks.read env before.length b =
            (getHashFromBlock env block, before.length) :: openBlocks := by
          simp only [OpenBlocks.read, hblock, if_neg hend]
        have hnew := mt (h.head_iff _).mpr hend
        rw [step_start skip hblock hnew, hread]
        simp only [Skipping.step.startBlock]
        have hentries : ∀ flag, List.Forall₂
            (fun (entry : Option BlockId × Bool) (block : Option BlockId × Nat) =>
              entry.1 = block.1 ∧ (before ++ [flag])[block.2]? = some entry.2)
            ((getHashFromBlock env block, flag) :: stack)
            ((getHashFromBlock env block, before.length) :: openBlocks) := by
          intro flag
          exact .cons ⟨rfl, by simp⟩ (hlater flag).entries
        cases skippingAt with
        | none =>
            refine ⟨hentries true, ?_⟩
            have hsent : ∀ entry ∈ (getHashFromBlock env block, true) :: stack, entry.2 = true := by
              intro entry hentry
              rcases List.mem_cons.mp hentry with rfl | hentry
              · rfl
              · exact h.cached entry hentry
            simp only [if_true]
            split
            · exact hsent
            · rename_i depth houtermost
              obtain ⟨inner, entry, outer, hstack, hdepth, hskip, -⟩ :=
                outermostSkipped_eq_some skip houtermost
              refine ⟨inner, entry, outer, hstack, hdepth, hskip, fun other hother => ?_⟩
              exact hsent other (hstack ▸ List.mem_append_right _ hother)
        | some depth =>
            refine ⟨hentries false, ?_⟩
            obtain ⟨inner, entry, outer, hstack, hdepth, hskip, hsent⟩ := (h.mono hgrows).cached
            exact ⟨_ :: inner, entry, outer, congrArg (_ :: ·) hstack, hdepth, hskip, hsent⟩

end Tracks

section Exact

variable {env : Enviroment} (skips : Nat → BlockId → Bool)

theorem step_output (skip : BlockId → Bool) (s : Skipping) (b : Buffer) :
    (s.step env skip b).2 = [] ∨ (s.step env skip b).2 = [b] := by
  simp only [Skipping.step, Skipping.step.startBlock]
  repeat' split
  all_goals simp

theorem skipRequestedBlocks_emitted (i : Nat) (s : Skipping) (items : List Buffer) :
    skipRequestedBlocks env skips i s items =
      ((items.zip (emittedFrom env skips i s items)).filter Prod.snd).map Prod.fst := by
  induction items generalizing i s with
  | nil => rfl
  | cons b rest ih =>
      rw [skipRequestedBlocks, emittedFrom, List.zip_cons_cons, ih]
      rcases @step_output env (skips i) s b with h | h
      · rw [h, List.filter_cons_of_neg (by simp)]
        rfl
      · rw [h, List.filter_cons_of_pos (by simp)]
        rfl

theorem emittedFrom_length (i : Nat) (s : Skipping) (items : List Buffer) :
    (emittedFrom env skips i s items).length = items.length := by
  induction items generalizing i s with
  | nil => rfl
  | cons b rest ih => rw [emittedFrom, List.length_cons, ih, List.length_cons]

-- What is emitted is properly nested in the blocks whose start markers were.
theorem emitted_nested (pulled : Nat → BlockId → Bool)
    (hpulled : ∀ i id, pulled i id = true → skips i id = true)
    (hgrows : ∀ i id, skips i id = true → pulled (i + 1) id = true) (items : List Buffer)
    (s : Skipping) (openBlocks : OpenBlocks) (before : List Bool) (i : Nat)
    (hi : before.length = i) (h : Tracks (pulled i) s openBlocks before)
    (hnested : ProperlyNested env (openBlocks.map Prod.fst) items) :
    ProperlyNested env ((s.stack.filter Prod.snd).map Prod.fst)
      (skipRequestedBlocks env skips i s items) := by
  induction items generalizing s openBlocks before i with
  | nil =>
      have hnil : openBlocks = [] := List.map_eq_nil_iff.mp hnested
      have hentries := h.entries
      rw [hnil] at hentries
      cases hs : s.stack with
      | nil => rfl
      | cons entry stack => simp [hs] at hentries
  | cons b rest ih =>
      subst hi
      have hmore := ih _ _ _ (before.length + 1) (by simp)
        ((@tracks_step env _ _ _ _ _ h (hpulled before.length) b).mono (hgrows _))
      rw [skipRequestedBlocks]
      rw [ProperlyNested] at hnested
      cases hblock : b.block with
      | none =>
          simp only [hblock] at hnested
          have hread : openBlocks.read env before.length b = openBlocks := by
            simp only [OpenBlocks.read, hblock]
          rw [hread] at hmore
          have hrest := hmore hnested
          rw [step_plain _ _ hblock] at hrest ⊢
          split
          · rw [List.singleton_append, ProperlyNested]
            simp only [hblock]
            exact hrest
          · exact hrest
      | some block =>
          simp only [hblock] at hnested
          obtain ⟨stack, skippingAt⟩ := s
          by_cases hend : openBlocks.head?.map Prod.fst = some (getHashFromBlock env block)
          · have hread : openBlocks.read env before.length b = openBlocks.tail := by
              simp only [OpenBlocks.read, hblock, hend, if_true]
            rw [List.head?_map, if_pos hend, ← List.map_tail] at hnested
            rw [hread] at hmore
            have hrest := hmore hnested
            have htop := (h.head_iff _).mp hend
            obtain ⟨⟨top, opened⟩, outer, rfl⟩ : ∃ entry outer, stack = entry :: outer := by
              cases stack with
              | nil => cases htop
              | cons entry outer => exact ⟨entry, outer, rfl⟩
            obtain rfl : top = getHashFromBlock env block := Option.some.inj htop
            rw [step_end _ hblock] at hrest ⊢
            cases opened with
            | true =>
                simp only [if_true, List.singleton_append, ProperlyNested, hblock,
                  List.filter_cons_of_pos, List.map_cons, List.head?_cons, List.tail_cons]
                exact hrest
            | false => exact hrest
          · have hread : openBlocks.read env before.length b =
                (getHashFromBlock env block, before.length) :: openBlocks := by
              simp only [OpenBlocks.read, hblock, if_neg hend]
            rw [List.head?_map, if_neg hend] at hnested
            rw [hread] at hmore
            have hrest := hmore hnested.2
            have hnew := mt (h.head_iff _).mpr hend
            rw [step_start _ hblock hnew] at hrest ⊢
            simp only [Skipping.step.startBlock] at hrest ⊢
            have hcached := h.cached
            cases skippingAt with
            | none =>
                have hall : stack.filter Prod.snd = stack :=
                  List.filter_eq_self.mpr hcached
                have hids : stack.map Prod.fst = openBlocks.map Prod.fst := h.ids
                simp only [if_true, List.singleton_append, ProperlyNested, hblock, hall] at hrest ⊢
                rw [List.head?_map, if_neg hnew]
                refine ⟨hids ▸ hnested.1, ?_⟩
                rw [List.filter_cons_of_pos rfl, hall] at hrest
                exact hrest
            | some depth => exact hrest

-- Whether the buffer with number `n` is emitted, where these blocks are open around it, `skip`
-- is what has been asked for when the loop looks, and `pulled` when it was pulled.
structure Exact (env : Enviroment) (skip pulled : BlockId → Bool) (emitted : List Bool)
    (openBlocks : OpenBlocks) (n : Nat) (b : Buffer) : Prop where
  plain : b.block = none →
    (emitted[n]? = some true ↔ ∀ other ∈ openBlocks, shouldSkip skip other.1 = false)
  ends : ∀ block start outer, b.block = some block →
    openBlocks = (getHashFromBlock env block, start) :: outer → emitted[n]? = emitted[start]?
  starts : ∀ block, b.block = some block →
    openBlocks.head?.map Prod.fst ≠ some (getHashFromBlock env block) →
    (∀ other ∈ openBlocks, shouldSkip pulled other.1 = false) → emitted[n]? = some true

theorem Tracks.exact {skip pulled : BlockId → Bool} {s : Skipping} {openBlocks : OpenBlocks}
    {before : List Bool} (h : Tracks pulled s openBlocks before)
    (hpulled : ∀ id, pulled id = true → skip id = true) (b : Buffer) (behind : List Bool) :
    Exact env skip pulled (before ++ (!(s.step env skip b).2.isEmpty) :: behind) openBlocks
      before.length b := by
  have hflag : (before ++ (!(s.step env skip b).2.isEmpty) :: behind)[before.length]? =
      some (!(s.step env skip b).2.isEmpty) := by simp
  refine ⟨fun hblock => ?_, fun block start outer hblock hopen => ?_, fun block hblock hnew hclear => ?_⟩
  · have hskipping : (!(s.step env skip b).2.isEmpty) = true ↔
        (s.skippingAt <|> Skipping.outermostSkipped skip s.stack) = none := by
      rw [step_plain skip s hblock]
      split <;> simp_all
    rw [hflag, Option.some.injEq, hskipping]
    constructor
    · intro hnone
      rw [Option.orElse_eq_orElse, Option.orElse_eq_or, Option.or_eq_none_iff] at hnone
      exact (h.all_iff fun id => shouldSkip skip id = false).mp
        ((outermostSkipped_eq_none skip).mp hnone.2)
    · intro hclear
      have hnone := (h.mono hpulled).none_of_clear hclear
      rw [hnone]
      exact (outermostSkipped_eq_none skip).mpr
        ((h.all_iff fun id => shouldSkip skip id = false).mpr hclear)
  · have hentries := h.entries
    rw [hopen] at hentries
    obtain ⟨stack, skippingAt⟩ := s
    cases hentries with
    | @cons entry _ stack _ hone hrest =>
        obtain ⟨top, opened⟩ := entry
        obtain ⟨rfl, hsent⟩ := hone
        obtain ⟨hlt, -⟩ := List.getElem?_eq_some_iff.mp hsent
        rw [hflag, List.getElem?_append_left hlt, hsent, step_end skip hblock]
        cases opened <;> rfl
  · have hnone := h.none_of_clear hclear
    rw [hflag, step_start skip hblock (mt (h.head_iff _).mpr hnew)]
    simp only [Skipping.step.startBlock, hnone, if_true]
    rfl

theorem emitted_exact (pulled : Nat → BlockId → Bool)
    (hpulled : ∀ i id, pulled i id = true → skips i id = true)
    (hgrows : ∀ i id, skips i id = true → pulled (i + 1) id = true) (items : List Buffer)
    (s : Skipping) (openBlocks : OpenBlocks) (before : List Bool) (i : Nat)
    (hi : before.length = i) (h : Tracks (pulled i) s openBlocks before) (n : Nat) (b : Buffer)
    (hb : items[n]? = some b) :
    Exact env (skips (i + n)) (pulled (i + n)) (before ++ emittedFrom env skips i s items)
      (openFrom env i openBlocks items n) (i + n) b := by
  induction items generalizing s openBlocks before i n with
  | nil => cases hb
  | cons first rest ih =>
      subst hi
      cases n with
      | zero =>
          obtain rfl := Option.some.inj hb
          exact h.exact (hpulled before.length) first _
      | succ n =>
          have hmore := ih _ _ _ (before.length + 1) (by simp)
            ((@tracks_step env _ _ _ _ _ h (hpulled before.length) first).mono (hgrows _)) n hb
          rw [List.append_assoc, Nat.add_assoc, Nat.add_comm 1] at hmore
          exact hmore

-- The filter is exact: it lets a subsequence through that is properly nested, in which an end
-- marker is if its start marker is, in which a start marker is unless a block around it was to
-- be skipped when it was pulled, and another buffer if and only if none is.
theorem skipRequestedBlocks_exact (env : Enviroment) (skips pulled : Nat → BlockId → Bool)
    (items : List Buffer) (hnested : ProperlyNested env [] items)
    (hpulled : ∀ i id, pulled i id = true → skips i id = true)
    (hgrows : ∀ i id, skips i id = true → pulled (i + 1) id = true) :
    ∃ emitted : List Bool, emitted.length = items.length ∧
      skipRequestedBlocks env skips 0 {} items =
        ((items.zip emitted).filter Prod.snd).map Prod.fst ∧
      ProperlyNested env [] (skipRequestedBlocks env skips 0 {} items) ∧
      ∀ n b, items[n]? = some b →
        Exact env (skips n) (pulled n) emitted (openAt env items n) n b := by
  have htracks : Tracks (pulled 0) {} [] [] := ⟨.nil, fun entry h => absurd h List.not_mem_nil⟩
  refine ⟨emittedFrom env skips 0 {} items, emittedFrom_length .., skipRequestedBlocks_emitted ..,
    emitted_nested skips pulled hpulled hgrows items {} [] [] 0 rfl htracks hnested,
    fun n b hb => ?_⟩
  have h := @emitted_exact env skips pulled hpulled hgrows items {} [] [] 0 rfl htracks n b hb
  rwa [Nat.zero_add] at h

-- A request for the block around that arrives while the one inside is open.
theorem skipRequestedBlocks_exact_sample :
    let env : Enviroment := .sample
    let marker (id : BlockId) : Buffer := { block := some (blockPointer env id) }
    let chunk (content : Bytes) : Buffer := { chunk := some content }
    let items : List Buffer := [marker [1, 9], chunk [1], marker [1, 5], chunk [2], chunk [3],
      marker [1, 5], marker [1, 6], marker [1, 6], chunk [4], marker [1, 9], chunk [5]]
    let skips : Nat → BlockId → Bool := fun n id => decide (4 ≤ n) && id == [1, 9]
    ∃ emitted : List Bool, emitted.length = items.length ∧
      skipRequestedBlocks env skips 0 {} items =
        ((items.zip emitted).filter Prod.snd).map Prod.fst ∧
      ProperlyNested env [] (skipRequestedBlocks env skips 0 {} items) ∧
      ∀ n b, items[n]? = some b →
        Exact env (skips n) (skips n) emitted (openAt env items n) n b :=
  skipRequestedBlocks_exact .sample _ _ _ (by simp [ProperlyNested]; decide) (fun _ _ h => h)
    (fun i id h => by
      obtain ⟨hi, hid⟩ := Bool.and_eq_true_iff.mp h
      exact Bool.and_eq_true_iff.mpr ⟨decide_eq_true (Nat.le_succ_of_le (of_decide_eq_true hi)), hid⟩)

end Exact

end BeeRpc
