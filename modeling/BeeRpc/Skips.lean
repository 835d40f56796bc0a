import BeeRpc.SkipFilter
import BeeRpc.Transfer

namespace BeeRpc

open Wire Effect Naming

section Filter

variable {env : Enviroment} (skips : Nat → BlockId → Bool)

namespace Skipping

-- How the loop stands behind some buffers.
def after (env : Enviroment) (skips : Nat → BlockId → Bool) : Nat → Skipping → List Buffer → Skipping
  | _, s, [] => s
  | i, s, b :: rest => after env skips (i + 1) (s.step env (skips i) b).1 rest

-- The open blocks, innermost first.
def At (s : Skipping) (blocks : List BlockId) : Prop := s.stack.map Prod.fst = blocks.map some

-- A block has been opened whose start was sent, and one that the depth `last` was skipped in
-- has been closed.
def opened (skip : BlockId → Bool) (id : BlockId) (stack : List (Option BlockId × Bool)) :
    Skipping where
  stack := (some id, true) :: stack
  skippingAt := outermostSkipped skip ((some id, true) :: stack)

def closed (last : Option Nat) (stack : List (Option BlockId × Bool)) : Skipping where
  stack := stack
  skippingAt := if last = some (stack.length + 1) then none else last

end Skipping

theorem skipRequestedBlocks_append (i : Nat) (s : Skipping) (left right : List Buffer) :
    skipRequestedBlocks env skips i s (left ++ right) =
      skipRequestedBlocks env skips i s left ++
        skipRequestedBlocks env skips (i + left.length) (s.after env skips i left) right := by
  induction left generalizing i s with
  | nil => rfl
  | cons b left ih =>
      simp only [List.cons_append, skipRequestedBlocks, ih, List.append_assoc, List.length_cons,
        Skipping.after]
      congr 3
      omega

theorem after_append (i : Nat) (s : Skipping) (left right : List Buffer) :
    s.after env skips i (left ++ right) =
      (s.after env skips i left).after env skips (i + left.length) right := by
  induction left generalizing i s with
  | nil => rfl
  | cons b left ih =>
      simp only [List.cons_append, Skipping.after, ih, List.length_cons]
      congr 1
      omega

theorem skipRequestedBlocks_prefix (i : Nat) (s : Skipping) {pre items : List Buffer}
    (h : pre <+: items) :
    skipRequestedBlocks env skips i s pre <+: skipRequestedBlocks env skips i s items := by
  obtain ⟨behind, rfl⟩ := h
  rw [skipRequestedBlocks_append]
  exact List.prefix_append ..

-- The block that is skipped is none of the outer ones where nobody has asked to skip them.
theorem outermostSkipped_bounds {skip : BlockId → Bool} {s : Skipping} {inner outer : List BlockId}
    (hat : s.At (inner ++ outer)) (hclear : ∀ id ∈ outer, skip id = false) :
    ∀ depth ∈ Skipping.outermostSkipped skip s.stack,
      outer.length < depth ∧ depth ≤ s.stack.length := by
  intro depth hdepth
  obtain ⟨n, hn, rfl⟩ := Option.map_eq_some_iff.mp hdepth
  obtain ⟨hlt, hskip, -⟩ := List.findIdx?_eq_some_iff_getElem.mp hn
  rw [List.length_reverse] at hlt
  refine ⟨Nat.lt_succ_of_le (Nat.le_of_not_lt fun hlow => ?_), hlt⟩
  -- the entry at this depth is an outer block
  have hids : s.stack.reverse.map Prod.fst = (outer.reverse ++ inner.reverse).map some := by
    rw [List.map_reverse, hat, ← List.map_reverse, List.reverse_append]
  have hentry : (s.stack.reverse.map Prod.fst)[n]? =
      some (s.stack.reverse.get ⟨n, by simpa using hlt⟩).1 := by
    rw [List.getElem?_map, List.getElem?_eq_getElem (by simpa using hlt)]
    rfl
  rw [hids, List.getElem?_map, List.getElem?_append_left (by simpa using hlow)] at hentry
  obtain ⟨id, hid, heq⟩ := Option.map_eq_some_iff.mp hentry
  have hmem : id ∈ outer := List.mem_reverse.mp (List.mem_of_getElem? hid)
  rw [List.get_eq_getElem] at heq
  rw [← heq] at hskip
  obtain ⟨found, hfound, hskip⟩ := (Option.any_eq_true _ _).mp hskip
  obtain ⟨heq, -⟩ := truthy_eq_some.mp hfound
  rw [← Option.some.inj heq, hclear id hmem] at hskip
  cases hskip

theorem step_open (hd : env.Digests) (skip : BlockId → Bool) {s : Skipping} {blocks : List BlockId}
    (hat : s.At blocks) {id : BlockId} (hnew : id ∉ blocks) (positions : List Nat) :
    s.step env skip (marker env id positions) =
      Skipping.step.startBlock skip s (marker env id positions) (some id) := by
  have hhash := getHashFromBlock_blockPointer env hd id positions
  have hne : s.stack.head?.map Prod.fst ≠ some (some id) := by
    rw [← List.head?_map, show s.stack.map Prod.fst = blocks.map some from hat, List.head?_map]
    rintro h
    obtain ⟨other, hother, heq⟩ := Option.map_eq_some_iff.mp h
    exact hnew (Option.some.inj heq ▸ List.mem_of_mem_head? hother)
  have h := step_start skip (s := s) (b := marker env id positions) rfl (by rwa [hhash])
  rwa [hhash] at h

theorem step_close (hd : env.Digests) (skip : BlockId → Bool) (stack : List (Option BlockId × Bool))
    (opened : Bool) (skippingAt : Option Nat) (id : BlockId) (positions : List Nat) :
    Skipping.step env skip ⟨(some id, opened) :: stack, skippingAt⟩ (marker env id positions) =
      ({ stack, skippingAt := if skippingAt = some (stack.length + 1) then none else skippingAt },
        if opened then [marker env id positions] else []) := by
  have h := @step_end env skip (marker env id positions) _ rfl stack opened skippingAt
  rwa [getHashFromBlock_blockPointer env hd id positions] at h

-- Where a block is skipped, nothing of what is in it is sent.
theorem skipped_forest (hd : env.Digests) (forest : Forest) {blocks : List BlockId}
    (hnests : forest.Nests blocks) (i : Nat) {s : Skipping} (hat : s.At blocks) {depth : Nat}
    (hskipping : s.skippingAt = some depth) (hdepth : depth ≤ s.stack.length) :
    skipRequestedBlocks env skips i s (forest.stream env) = [] ∧
      s.after env skips i (forest.stream env) = s := by
  induction forest generalizing blocks i s with
  | nil => exact ⟨rfl, rfl⟩
  | chunk skip content rest ih =>
      have hstep : s.step env (skips i) (chunkBuffer skip content) = (s, []) := by
        obtain ⟨stack, skippingAt⟩ := s
        obtain rfl : skippingAt = some depth := hskipping
        rfl
      simp only [Forest.stream, skipRequestedBlocks, Skipping.after, hstep]
      exact ih hnests (i + 1) hat hskipping hdepth
  | block id positions body rest ihBody ihRest =>
      obtain ⟨-, hnew, -, hbody, hrest⟩ := hnests
      obtain ⟨stack, skippingAt⟩ := s
      obtain rfl : skippingAt = some depth := hskipping
      have hopen : Skipping.step env (skips i) ⟨stack, some depth⟩ (marker env id positions) =
          (⟨(some id, false) :: stack, some depth⟩, []) := by
        rw [step_open hd _ hat hnew]
        rfl
      have hinside := ihBody hbody (i + 1) (s := ⟨(some id, false) :: stack, some depth⟩)
        (congrArg (some id :: ·) hat) rfl (Nat.le_succ_of_le hdepth)
      have hclose : ∀ skip, Skipping.step env skip ⟨(some id, false) :: stack, some depth⟩
          (marker env id positions) = (⟨stack, some depth⟩, []) := by
        intro skip
        have hne : ¬ some depth = some (stack.length + 1) := by
          rintro h
          have := Option.some.inj h
          simp only at hdepth
          omega
        rw [step_close hd, if_neg hne]
        rfl
      have hbehind := ihRest hrest (i + 1 + (body.stream env).length + 1) hat rfl hdepth
      simp only [Forest.stream, List.cons_append, skipRequestedBlocks, Skipping.after, hopen,
        skipRequestedBlocks_append, after_append, hinside, hclose, hbehind, List.append_nil,
        and_self]

-- Both markers of a block are sent where nothing is skipped in front of it.
theorem skip_block (hd : env.Digests) (i : Nat) {stack : List (Option BlockId × Bool)}
    {blocks : List BlockId} (hat : Skipping.At ⟨stack, none⟩ blocks) {id : BlockId}
    (hnew : id ∉ blocks) (positions : List Nat) {body : Forest} (rest : Forest) {last : Option Nat}
    (hlast : (Skipping.opened (skips i) id stack).after env skips (i + 1) (body.stream env) =
      ⟨(some id, true) :: stack, last⟩) :
    skipRequestedBlocks env skips i ⟨stack, none⟩ ((Forest.block id positions body rest).stream env) =
        marker env id positions ::
          skipRequestedBlocks env skips (i + 1) (.opened (skips i) id stack) (body.stream env) ++
          marker env id positions :: skipRequestedBlocks env skips
            (i + 1 + (body.stream env).length + 1) (.closed last stack) (rest.stream env) ∧
      Skipping.after env skips i ⟨stack, none⟩ ((Forest.block id positions body rest).stream env) =
        (Skipping.closed last stack).after env skips (i + 1 + (body.stream env).length + 1)
          (rest.stream env) := by
  have hopen : Skipping.step env (skips i) ⟨stack, none⟩ (marker env id positions) =
      (.opened (skips i) id stack, [marker env id positions]) := by
    rw [step_open hd _ hat hnew]
    rfl
  simp only [Forest.stream, List.cons_append, skipRequestedBlocks, Skipping.after, hopen,
    skipRequestedBlocks_append, after_append, hlast, step_close hd]
  exact ⟨rfl, rfl⟩

-- Whatever is skipped, a forest is left, and no block is skipped behind it that was not open
-- around it.
theorem pruned_forest (hd : env.Digests) (forest : Forest) {inner outer : List BlockId}
    (hnests : forest.Nests (inner ++ outer)) (i : Nat) {s : Skipping}
    (hat : s.At (inner ++ outer))
    (hclear : ∀ n < (forest.stream env).length, ∀ id ∈ outer, skips (i + n) id = false)
    (hbounds : ∀ depth ∈ s.skippingAt, outer.length < depth ∧ depth ≤ s.stack.length) :
    ∃ pruned : Forest, pruned.Nests (inner ++ outer) ∧
      skipRequestedBlocks env skips i s (forest.stream env) = pruned.stream env ∧
      ∃ skippingAt : Option Nat,
        s.after env skips i (forest.stream env) = { s with skippingAt } ∧
        ∀ depth ∈ skippingAt, outer.length < depth ∧ depth ≤ s.stack.length := by
  induction forest generalizing inner i s with
  | nil => exact ⟨.nil, trivial, rfl, s.skippingAt, rfl, hbounds⟩
  | chunk skip content rest ih =>
      let skippingAt := s.skippingAt <|> Skipping.outermostSkipped (skips i) s.stack
      have hbounds' : ∀ depth ∈ skippingAt, outer.length < depth ∧ depth ≤ s.stack.length := by
        intro depth hdepth
        simp only [skippingAt, Option.mem_def, Option.orElse_eq_orElse, Option.orElse_eq_or,
          Option.or_eq_some_iff] at hdepth
        rcases hdepth with hdepth | ⟨-, hdepth⟩
        · exact hbounds depth hdepth
        · exact outermostSkipped_bounds hat
            (fun id hid => hclear 0 (Nat.succ_pos _) id hid) depth hdepth
      obtain ⟨pruned, hpruned, hstream, last, hafter, hlast⟩ := ih hnests (i + 1)
        (s := { s with skippingAt }) hat
        (fun n hn id hid => by
          have := hclear (n + 1) (Nat.succ_lt_succ hn) id hid
          rwa [Nat.add_comm n, ← Nat.add_assoc] at this) hbounds'
      have hstep : s.step env (skips i) (chunkBuffer skip content) =
          ({ s with skippingAt }, if skippingAt = none then [chunkBuffer skip content] else []) := rfl
      simp only [Forest.stream, skipRequestedBlocks, Skipping.after, hstep, hstream]
      by_cases hnone : skippingAt = none
      · rw [if_pos hnone]
        exact ⟨.chunk skip content pruned, hpruned, rfl, last, hafter, hlast⟩
      · rw [if_neg hnone]
        exact ⟨pruned, hpruned, rfl, last, hafter, hlast⟩
  | block id positions body rest ihBody ihRest =>
      cases hskipping : s.skippingAt with
      | some depth =>
          obtain ⟨hnothing, hafter⟩ := skipped_forest skips hd _ hnests i hat hskipping
            (hbounds depth hskipping).2
          exact ⟨.nil, trivial, hnothing, s.skippingAt, hafter, hbounds⟩
      | none =>
          obtain ⟨hid, hnew, hdeep, hbody, hrest⟩ := hnests
          obtain ⟨stack, skippingAt⟩ := s
          obtain rfl : skippingAt = none := hskipping
          simp only [Forest.stream, List.length_append, List.length_cons] at hclear
          have hopened : (Skipping.opened (skips i) id stack).At (id :: inner ++ outer) :=
            congrArg (some id :: ·) hat
          obtain ⟨inside, hinside, hstream, last, hafter, hlast⟩ := @ihBody
            (id :: inner) hbody (i + 1) _ hopened
            (fun n hn other ho => by
              have := hclear (n + 1) (by omega) other ho
              rwa [Nat.add_comm n, ← Nat.add_assoc] at this)
            (outermostSkipped_bounds hopened fun other ho => hclear 0 (by omega) other ho)
          have hclosed : ∀ depth ∈ (Skipping.closed last stack).skippingAt,
              outer.length < depth ∧ depth ≤ stack.length := by
            intro depth hdepth
            simp only [Skipping.closed, Option.mem_def, ite_eq_iff, reduceCtorEq, and_false,
              false_or] at hdepth
            obtain ⟨hne, rfl⟩ := hdepth
            obtain ⟨hlow, hle⟩ := hlast depth rfl
            simp only [Skipping.opened, List.length_cons] at hle
            exact ⟨hlow, Nat.le_of_lt_succ (Nat.lt_of_le_of_ne hle fun h => hne (h ▸ rfl))⟩
          obtain ⟨behind, hbehind, hstream', end', hafter', hend⟩ := ihRest hrest
            (i + 1 + (body.stream env).length + 1) (s := .closed last stack) hat
            (fun n hn other ho => by
              have := hclear ((body.stream env).length + 1 + 1 + n) (by omega) other ho
              rwa [show i + ((body.stream env).length + 1 + 1 + n) =
                i + 1 + (body.stream env).length + 1 + n by omega] at this) hclosed
          obtain ⟨hsent, hleft⟩ := skip_block skips hd i hat hnew positions rest hafter
          refine ⟨.block id positions inside behind, ⟨hid, hnew, hdeep, hinside, hbehind⟩, ?_, end',
            hleft.trans hafter', hend⟩
          rw [hsent, hstream, hstream']
          rfl

end Filter

section Asked

variable {env : Enviroment} (control : Bool)

-- What had been asked for when everything was read.
def askedBy {α : Type} : Except Failure (Known × α) → List BlockId
  | .ok (k, _) => k.asked
  | .error failure => failure.asked

-- A receiver that has asked for nothing that it does not hold.
def Known.Asks (k : Known) : Prop := ∀ id ∈ k.asked, k.registry.blockExists id = true

theorem ask_missing {k : Known} {id : BlockId} (h : ¬ k.registry.blockExists id = true) :
    k.ask control id = k := by
  simp [Known.ask, h]

theorem mem_ask {k : Known} {id other : BlockId} (h : other ∈ (k.ask control id).asked) :
    other ∈ k.asked ∨ other = id ∧ k.registry.blockExists id = true := by
  simp only [Known.ask] at h
  split at h
  · rename_i hexists
    split at h
    · exact Or.inl h
    · exact (List.mem_append.mp h).imp_right fun h =>
        ⟨List.mem_singleton.mp h, (Bool.and_eq_true_iff.mp hexists).2⟩
  · exact Or.inl h

theorem Known.Asks.ask {k : Known} (h : k.Asks) (id : BlockId) : (k.ask control id).Asks := by
  intro other hother
  rw [ask_registry]
  rcases mem_ask control hother with hother | ⟨rfl, hexists⟩
  · exact h other hother
  · exact hexists

theorem Known.Asks.drain {k : Known} (h : k.Asks) (forest : Forest) : (k.drain control forest).Asks := by
  induction forest generalizing k with
  | nil => exact h
  | chunk skip content rest ih => exact ih h
  | block id positions body rest ihBody ihRest => exact ihRest (ihBody (h.ask control id))

theorem storeBlock_asked {id : BlockId} {q : Part} {k k' : Known}
    (h : k.storeBlock env id q = .ok k') : k'.asked = k.asked := by
  simp only [Known.storeBlock] at h
  split at h
  · cases h
  · obtain rfl := Except.ok.inj h
    rfl

theorem storeBlock_failed {id : BlockId} {q : Part} {k : Known} {failure : Failure}
    (h : k.storeBlock env id q = .error failure) : failure.asked = k.asked := by
  simp only [Known.storeBlock] at h
  split at h
  · rw [← Except.error.inj h]
  · cases h

theorem Known.Asks.store {k k' : Known} (h : k.Asks) {id : BlockId} {q : Part}
    (hstore : k.storeBlock env id q = .ok k') : k'.Asks := by
  simp only [Known.storeBlock] at hstore
  split at hstore
  · cases hstore
  · obtain rfl := Except.ok.inj hstore
    intro other hother
    have := h other hother
    by_cases heq : other = id
    · simp [Registry.blockExists, heq]
    · rw [Registry.blockExists, Registry.lookup_store_ne _ _ heq]
      exact this

theorem Known.Asks.absorb {forest : Forest} {k k' : Known} {p q : Part} (h : k.Asks)
    (habsorb : absorb env control k p forest = .ok (k', q)) : k'.Asks := by
  induction forest generalizing k k' p q with
  | nil =>
      obtain ⟨rfl, -⟩ := Prod.mk.inj (Except.ok.inj habsorb)
      exact h
  | chunk skip content rest ih => exact ih h habsorb
  | block id positions body rest ihBody ihRest =>
      simp only [BeeRpc.absorb] at habsorb
      split at habsorb
      · exact ihRest ((h.ask control id).drain control body) habsorb
      · obtain ⟨⟨k₁, q₁⟩, hbody, habsorb⟩ := bind_eq_ok.mp habsorb
        obtain ⟨k₂, hstore, habsorb⟩ := bind_eq_ok.mp habsorb
        exact ihRest ((ihBody (h.ask control id) hbody).store hstore) habsorb

-- A block that the forest is in is not asked for in it.
theorem drain_asked {forest : Forest} {blocks : List BlockId} (hnests : forest.Nests blocks)
    {id : BlockId} (hid : id ∈ blocks) {k : Known} (hnew : id ∉ k.asked) :
    id ∉ (k.drain control forest).asked := by
  induction forest generalizing blocks k with
  | nil => exact hnew
  | chunk skip content rest ih => exact ih hnests hid hnew
  | block other positions body rest ihBody ihRest =>
      obtain ⟨-, hother, -, hbody, hrest⟩ := hnests
      refine ihRest hrest hid (ihBody hbody (List.mem_cons_of_mem _ hid) fun h => ?_)
      rcases mem_ask control h with h | ⟨rfl, -⟩
      · exact hnew h
      · exact hother hid

theorem absorb_asked {forest : Forest} {blocks : List BlockId} (hnests : forest.Nests blocks)
    {id : BlockId} (hid : id ∈ blocks) {k : Known} (p : Part) (hnew : id ∉ k.asked) :
    id ∉ askedBy (absorb env control k p forest) := by
  induction forest generalizing blocks k p with
  | nil => exact hnew
  | chunk skip content rest ih => exact ih hnests hid _ hnew
  | block other positions body rest ihBody ihRest =>
      obtain ⟨-, hother, -, hbody, hrest⟩ := hnests
      have hasked : id ∉ (k.ask control other).asked := by
        intro h
        rcases mem_ask control h with h | ⟨rfl, -⟩
        · exact hnew h
        · exact hother hid
      simp only [absorb]
      split
      · exact ihRest hrest hid _ (drain_asked control hbody (List.mem_cons_of_mem _ hid) hasked)
      · have hinside := ihBody hbody (List.mem_cons_of_mem _ hid) {} hasked
        cases hinner : absorb env control (k.ask control other) {} body with
        | error failure =>
            rw [hinner] at hinside
            exact hinside
        | ok result =>
            rw [hinner] at hinside
            simp only [ok_bind]
            cases hstore : result.1.storeBlock env other result.2 with
            | error failure =>
                simp only [error_bind, askedBy, storeBlock_failed hstore]
                exact hinside
            | ok k' =>
                exact ihRest hrest hid _ (storeBlock_asked hstore ▸ hinside)

-- A block that is missing and open to the end: only what is in it is asked for.
theorem askedBy_missing {k : Known} (p : Part) {id : BlockId} (positions : List Nat) (inner : Forest)
    (h : ¬ k.registry.blockExists id = true) :
    askedBy (absorb env control k p (.block id positions inner .nil)) =
      askedBy (absorb env control k {} inner) := by
  simp only [absorb, if_neg h, ask_missing control h]
  cases absorb env control k {} inner with
  | error failure => rfl
  | ok result =>
      simp only [ok_bind]
      cases hstore : result.1.storeBlock env id result.2 with
      | error failure => simp only [error_bind, askedBy, storeBlock_failed hstore]
      | ok k' => simp only [ok_bind, askedBy, storeBlock_asked hstore]

end Asked

section Timely

variable {env : Enviroment} (skips : Nat → BlockId → Bool)

-- The peer skips nothing that has not been asked for once what was sent by then is read, by
-- a receiver that stands at `k` and `p` with these blocks open.
def Timely (env : Enviroment) (skips : Nat → BlockId → Bool) (i : Nat) (s : Skipping)
    (blocks : List BlockId) (k : Known) (p : Part) (items : List Buffer) : Prop :=
  ∀ n < items.length, ∀ id, skips (i + n) id = true → ∀ cut : Cut, cut.Nests blocks →
    cut.stream env = skipRequestedBlocks env skips i s (items.take (n + 1)) →
    id ∈ askedBy (absorb env true k p cut.close)

-- No block that is being written is skipped.
theorem Timely.clear (hd : env.Digests) {forest : Forest} {i : Nat} {s : Skipping}
    {blocks : List BlockId} {k : Known} {p : Part}
    (h : Timely env skips i s blocks k p (forest.stream env)) (hnests : forest.Nests blocks)
    (hat : s.At blocks) (hnone : s.skippingAt = none) (hnew : ∀ id ∈ blocks, id ∉ k.asked) :
    ∀ n < (forest.stream env).length, ∀ id ∈ blocks, skips (i + n) id = false := by
  intro n hn id hid
  obtain ⟨pruned, hpruned, hstream, -⟩ := @pruned_forest env skips hd forest blocks
    [] (by rwa [List.append_nil]) i _ (by rwa [List.append_nil])
    (fun _ _ _ h => absurd h List.not_mem_nil) (by simp [hnone])
  rw [List.append_nil] at hpruned
  obtain ⟨cut, hcut, hsent⟩ := @exists_cut env pruned _ hpruned _ (hstream ▸
    skipRequestedBlocks_prefix skips i s (List.take_prefix (n + 1) (forest.stream env)))
  refine Bool.eq_false_of_not_eq_true fun hskip => ?_
  exact absorb_asked true (close_nests hcut) hid p (hnew id hid) (h n hn id hskip cut hcut hsent)

-- Behind what was absorbed, and sent as another forest, it goes on.
theorem Timely.behind {i : Nat} {s : Skipping} {blocks : List BlockId} {k k' : Known} {p q : Part}
    {items more : List Buffer} {sent : Forest}
    (h : Timely env skips i s blocks k p (items ++ more)) (hsent : sent.Nests blocks)
    (hstream : skipRequestedBlocks env skips i s items = sent.stream env)
    (habsorb : absorb env true k p sent = .ok (k', q)) :
    Timely env skips (i + items.length) (s.after env skips i items) blocks k' q more := by
  intro n hn id hskip cut hcut hcutStream
  have hall := h (items.length + n) (by rw [List.length_append]; omega) id
    (by rwa [← Nat.add_assoc]) (cut.behind sent) (behind_nests hsent hcut) (by
      rw [Nat.add_assoc, List.take_length_add_append, skipRequestedBlocks_append, behind_stream,
        hstream, hcutStream])
  rw [behind_close, absorb_append, habsorb] at hall
  exact hall

-- In a block that is missing too.
theorem Timely.inside (hd : env.Digests) {i : Nat} {stack : List (Option BlockId × Bool)}
    {blocks : List BlockId} {k : Known} {p : Part} {id : BlockId} {positions : List Nat}
    {body rest : Forest}
    (h : Timely env skips i ⟨stack, none⟩ blocks k p
      ((Forest.block id positions body rest).stream env))
    (hat : Skipping.At ⟨stack, none⟩ blocks) (hid : id ≠ []) (hnew : id ∉ blocks)
    (hdepth : blocks.length < MAX_BLOCK_NESTING) (hmissing : ¬ k.registry.blockExists id = true) :
    Timely env skips (i + 1) (.opened (skips i) id stack) (id :: blocks) k {} (body.stream env) := by
  intro n hn other hskip cut hcut hcutStream
  have hopen : Skipping.step env (skips i) ⟨stack, none⟩ (marker env id positions) =
      (.opened (skips i) id stack, [marker env id positions]) := by
    rw [step_open hd _ hat hnew]
    rfl
  have hall := h (n + 1) (by simp only [Forest.stream, List.length_append, List.length_cons]; omega)
    other (by rwa [Nat.add_comm n, ← Nat.add_assoc]) (.inside .nil id positions cut)
    ⟨trivial, hid, hnew, hdepth, hcut⟩ (by
      rw [Forest.stream, List.cons_append, List.take_succ_cons,
        List.take_append_of_le_length (Nat.succ_le_of_lt hn), skipRequestedBlocks, hopen,
        ← hcutStream]
      rfl)
  rwa [Cut.close, Forest.append, askedBy_missing true p positions _ hmissing] at hall

theorem outermostSkipped_none {skip : BlockId → Bool} {s : Skipping} {blocks : List BlockId}
    (hat : s.At blocks) (hclear : ∀ id ∈ blocks, skip id = false) :
    Skipping.outermostSkipped skip s.stack = none := by
  cases houtermost : Skipping.outermostSkipped skip s.stack with
  | none => rfl
  | some depth =>
      obtain ⟨hlow, hle⟩ := @outermostSkipped_bounds _ _ [] _ hat hclear depth houtermost
      have hlength : s.stack.length = blocks.length := by
        have := congrArg List.length hat
        simpa using this
      omega

-- What a receiver makes of one block, its body pruned.
def Prunes (env : Enviroment) (skips : Nat → BlockId → Bool) (forest : Forest) : Prop :=
  ∀ (blocks : List BlockId) (i : Nat) (stack : List (Option BlockId × Bool)) (k₀ k₀' k : Known)
    (p q : Part), forest.Nests blocks → Skipping.At ⟨stack, none⟩ blocks →
    absorb env true k₀ p forest = .ok (k₀', q) → k.registry = k₀.registry → k.Asks →
    (∀ id ∈ blocks, id ∉ k.asked) →
    Timely env skips i ⟨stack, none⟩ blocks k p (forest.stream env) →
    ∃ pruned k', pruned.Nests blocks ∧
      skipRequestedBlocks env skips i ⟨stack, none⟩ (forest.stream env) = pruned.stream env ∧
      Skipping.after env skips i ⟨stack, none⟩ (forest.stream env) = ⟨stack, none⟩ ∧
      absorb env true k p pruned = .ok (k', q) ∧ k'.registry = k₀'.registry

theorem Prunes.block (hd : env.Digests) {body : Forest} (hbody : Prunes env skips body)
    {blocks : List BlockId} {i : Nat} {stack : List (Option BlockId × Bool)} {k₀ k₀' k : Known}
    {p : Part} {id : BlockId} {positions : List Nat} {rest : Forest} {content : Bytes}
    (hnests : (Forest.block id positions body rest).Nests blocks)
    (hat : Skipping.At ⟨stack, none⟩ blocks)
    (habsorb : absorbBody env true (k₀.ask true id) id body = .ok (k₀', content))
    (hregistry : k.registry = k₀.registry) (hasks : k.Asks) (hnew : ∀ id ∈ blocks, id ∉ k.asked)
    (htimely : Timely env skips i ⟨stack, none⟩ blocks k p
      ((Forest.block id positions body rest).stream env)) :
    ∃ inside k' last, inside.Nests (id :: blocks) ∧
      skipRequestedBlocks env skips (i + 1) (.opened (skips i) id stack) (body.stream env) =
        inside.stream env ∧
      (Skipping.opened (skips i) id stack).after env skips (i + 1) (body.stream env) =
        ⟨(some id, true) :: stack, last⟩ ∧
      Skipping.closed last stack = ⟨stack, none⟩ ∧
      absorbBody env true (k.ask true id) id inside = .ok (k', content) ∧
      k'.registry = k₀'.registry := by
  have hclear := htimely.clear skips hd hnests hat rfl hnew
  obtain ⟨hid, hfresh, hdepth, hnestsBody, -⟩ := hnests
  have hopened : (Skipping.opened (skips i) id stack).At (id :: blocks) :=
    congrArg (some id :: ·) hat
  simp only [absorbBody, ask_registry, hregistry] at habsorb ⊢
  by_cases hexists : k₀.registry.blockExists id = true
  · -- it is thrown away, so whatever is skipped in it does not matter
    simp only [if_pos hexists] at habsorb ⊢
    obtain ⟨hknown, hcontent⟩ := Prod.mk.inj (Except.ok.inj habsorb)
    simp only [Forest.stream, List.length_append, List.length_cons] at hclear
    obtain ⟨inside, hinside, hstream, last, hafter, hlast⟩ := @pruned_forest env skips hd body
      [id] blocks hnestsBody (i + 1) _ hopened
      (fun n hn other ho => by
        have := hclear (n + 1) (by omega) other ho
        rwa [Nat.add_comm n, ← Nat.add_assoc] at this)
      (@outermostSkipped_bounds _ _ [id] _ hopened fun other ho => hclear 0 (by omega) other ho)
    refine ⟨inside, _, last, hinside, hstream, hafter, ?_, by rw [hcontent], ?_⟩
    · have hlength : stack.length = blocks.length := by
        have := congrArg List.length hat
        simpa using this
      cases last with
      | none => rfl
      | some depth =>
          obtain ⟨hlow, hle⟩ := hlast depth rfl
          simp only [Skipping.opened, List.length_cons] at hle
          rw [Skipping.closed, if_pos (congrArg some (by omega))]
    · rw [← hknown, drain_registry, drain_registry, ask_registry, ask_registry, hregistry]
  · have hmissing : ¬ k.registry.blockExists id = true := hregistry ▸ hexists
    simp only [if_neg hexists] at habsorb ⊢
    have hinside := htimely.inside skips hd hat hid hfresh hdepth hmissing
    have hnewInside : ∀ other ∈ id :: blocks, other ∉ k.asked := by
      intro other hother hasked
      rcases List.mem_cons.mp hother with rfl | hother
      · exact hmissing (hasks _ hasked)
      · exact hnew other hother hasked
    -- nobody has asked for it, so it is not skipped from its start on either
    have hstart : Skipping.opened (skips i) id stack = ⟨(some id, true) :: stack, none⟩ := by
      have hskip : ∀ other ∈ id :: blocks, skips i other = false := by
        intro other hother
        refine Bool.eq_false_of_not_eq_true fun hskip => ?_
        have hsent := htimely 0 (Nat.succ_pos _) other hskip (.inside .nil id positions (.last .nil))
          ⟨trivial, hid, hfresh, hdepth, trivial⟩ (by
            rw [Forest.stream, List.cons_append, List.take_succ_cons, List.take_zero,
              skipRequestedBlocks, step_open hd _ hat hfresh]
            rfl)
        rw [Cut.close, Forest.append, askedBy_missing true p positions _ hmissing] at hsent
        exact hnewInside other hother hsent
      rw [Skipping.opened, outermostSkipped_none (s := ⟨(some id, true) :: stack, none⟩) hopened hskip]
    rw [hstart] at hinside ⊢
    obtain ⟨⟨k₁, q₁⟩, hbody₁, habsorb⟩ := bind_eq_ok.mp habsorb
    obtain ⟨k₂, hstore, habsorb⟩ := bind_eq_ok.mp habsorb
    obtain ⟨rfl, rfl⟩ := Prod.mk.inj (Except.ok.inj habsorb)
    rw [ask_missing true hexists] at hbody₁
    obtain ⟨inside, k', hnestsInside, hstream, hafter, habsorb', hregistry'⟩ := hbody (id :: blocks)
      (i + 1) _ k₀ k₁ k {} q₁ hnestsBody hopened hbody₁ hregistry hasks hnewInside hinside
    refine ⟨inside, { k' with registry := k₂.registry }, none, hnestsInside, hstream, hafter, rfl, ?_,
      rfl⟩
    simp only [Known.storeBlock] at hstore ⊢
    rw [ask_missing true hmissing, habsorb']
    simp only [ok_bind, hregistry']
    split at hstore
    · cases hstore
    · rename_i stored hstored
      obtain rfl := Except.ok.inj hstore
      rfl

-- However the filter cuts it short, the receiver absorbs the same.
theorem absorb_pruned (hd : env.Digests) (forest : Forest) : Prunes env skips forest := by
  induction forest with
  | nil =>
      intro blocks i stack k₀ k₀' k p q _ _ habsorb hregistry _ _ _
      obtain ⟨rfl, rfl⟩ := Prod.mk.inj (Except.ok.inj habsorb)
      exact ⟨.nil, k, trivial, rfl, rfl, rfl, hregistry⟩
  | chunk skip content rest ih =>
      intro blocks i stack k₀ k₀' k p q hnests hat habsorb hregistry hasks hnew htimely
      have hclear := htimely.clear skips hd hnests hat rfl hnew
      have hstep : Skipping.step env (skips i) ⟨stack, none⟩ (chunkBuffer skip content) =
          (⟨stack, none⟩, [chunkBuffer skip content]) := by
        have hnone : Skipping.outermostSkipped (skips i) stack = none :=
          outermostSkipped_none hat (hclear 0 (Nat.succ_pos _))
        simp only [Skipping.step, chunkBuffer, hnone]
        rfl
      have hbehind := @Timely.behind env skips _ _ _ _ _ _ _ [chunkBuffer skip content] _
        (.chunk skip content .nil) htimely trivial (by simp only [skipRequestedBlocks, hstep]; rfl) rfl
      have hafter : Skipping.after env skips i ⟨stack, none⟩ [chunkBuffer skip content] =
          ⟨stack, none⟩ := by
        simp only [Skipping.after, hstep]
      rw [hafter] at hbehind
      obtain ⟨pruned, k', hpruned, hstream, hafter', habsorb', hregistry'⟩ := ih blocks (i + 1) stack
        k₀ k₀' k (p.chunk content) q hnests hat habsorb hregistry hasks hnew hbehind
      refine ⟨.chunk skip content pruned, k', hpruned, ?_, ?_, habsorb', hregistry'⟩
      · rw [Forest.stream, skipRequestedBlocks, hstep, hstream]
        rfl
      · rw [Forest.stream, Skipping.after, hstep, hafter']
  | block id positions body rest ihBody ihRest =>
      intro blocks i stack k₀ k₀' k p q hnests hat habsorb hregistry hasks hnew htimely
      rw [absorb_block] at habsorb
      obtain ⟨⟨k₁, content⟩, hblock, habsorb⟩ := bind_eq_ok.mp habsorb
      obtain ⟨inside, k₂, last, hinside, hstream, hafter, hclosed, hblock', hregistry'⟩ :=
        ihBody.block skips hd hnests hat hblock hregistry hasks hnew htimely
      obtain ⟨hid, hfresh, hdepth, -, hrest⟩ := hnests
      have hsentNests : (Forest.block id positions inside .nil).Nests blocks :=
        ⟨hid, hfresh, hdepth, hinside, trivial⟩
      have hsentAbsorb : absorb env true k p (.block id positions inside .nil) =
          .ok (k₂, p.block id positions content) := by
        rw [absorb_block, hblock']
        rfl
      obtain ⟨halone, haloneAfter⟩ := skip_block skips hd i hat hfresh positions .nil hafter
      rw [hstream, hclosed] at halone
      rw [hclosed] at haloneAfter
      have hbehind := @Timely.behind env skips _ _ _ _ _ _ _
        ((Forest.block id positions body .nil).stream env) (rest.stream env)
        (.block id positions inside .nil) (by rw [← append_stream]; exact htimely) hsentNests halone hsentAbsorb
      rw [haloneAfter] at hbehind
      have hasks₂ : k₂.Asks := Known.Asks.absorb true hasks hsentAbsorb
      have hnew₂ : ∀ other ∈ blocks, other ∉ k₂.asked := by
        intro other hother
        have h := @absorb_asked env true _ _ hsentNests _ hother _ p (hnew other hother)
        rw [hsentAbsorb] at h
        exact h
      obtain ⟨pruned, k', hpruned, hstream', hafter', habsorb', hregistry''⟩ := ihRest blocks _ stack
        k₁ k₀' k₂ _ q hrest hat habsorb hregistry' hasks₂ hnew₂ hbehind
      obtain ⟨hsent, hleft⟩ := skip_block skips hd i hat hfresh positions rest hafter
      have hlength : i + ((Forest.block id positions body .nil).stream env).length =
          i + 1 + (body.stream env).length + 1 := by
        simp only [Forest.stream, List.length_append, List.length_cons, List.length_nil]
        omega
      rw [hlength] at hstream' hafter'
      rw [hclosed] at hsent hleft
      refine ⟨.block id positions inside pruned, k', ⟨hid, hfresh, hdepth, hinside, hpruned⟩, ?_,
        hleft.trans hafter', ?_, hregistry''⟩
      · rw [hsent, hstream, hstream']
        rfl
      · rw [absorb_block, hblock']
        exact habsorb'

end Timely

section Transfer

variable {receiver : Receiver}

theorem run_dir (hd : receiver.env.Digests) (w : World) (hw : w.Sound receiver.env)
    {head : Head} {rest : List Buffer} (hrequests : w.requests = { head := some head } :: rest)
    {forest : Forest} (hcarries : Carries receiver.env false rest forest [])
    {field : Field} (hfield : receiver.allIndices.lookup head.index = some field)
    (hmode : receiver.mode head.index = false) :
    (receiver.run w).2.asked =
        askedBy (absorb receiver.env receiver.control w.known {} forest) ∧
      ∀ k stored, absorbDir receiver.env receiver.control w.known forest = .ok (k, stored) →
        (receiver.run w).2.registry = k.registry ∧
          ∃ path, (receiver.run w).1 = .pure [.dir { dir := path, stored, type := field }] := by
  have hreceive := receive_dir hd { head := some head } w hw
    (by rw [hrequests]; exact .head head hcarries) hfield hmode
  rw [run_cons w hw hrequests]
  cases habsorb : absorbDir receiver.env receiver.control w.known forest with
  | error failure =>
      rw [habsorb] at hreceive
      obtain ⟨w', hw', hasked⟩ := hreceive
      simp only [hw', hasked, reduceCtorEq, false_implies, implies_true, and_true]
      simp only [absorbDir] at habsorb
      cases hinner : absorb receiver.env receiver.control w.known {} forest with
      | error other =>
          rw [hinner] at habsorb
          rw [← Except.error.inj habsorb]
          rfl
      | ok result =>
          rw [hinner] at habsorb
          simp only [ok_bind] at habsorb
          split at habsorb
          · rw [← Except.error.inj habsorb]
            rfl
          · cases habsorb
  | ok result =>
      obtain ⟨k, stored⟩ := result
      rw [habsorb] at hreceive
      obtain ⟨path, w', hw', hknown, hmore, -⟩ := hreceive
      simp only [hw', run_nil w' hmore]
      refine ⟨?_, fun k' stored' h => ?_⟩
      · obtain ⟨⟨k', q⟩, hinner, h⟩ := bind_eq_ok.mp habsorb
        simp only at h
        split at h
        · cases h
        · obtain ⟨rfl, -⟩ := Prod.mk.inj (Except.ok.inj h)
          rw [hinner]
          exact congrArg Known.asked hknown
      · obtain ⟨rfl, rfl⟩ := Prod.mk.inj (Except.ok.inj h)
        exact ⟨congrArg Known.registry hknown, path, rfl⟩

theorem skipRequestedBlocks_congr {env env' : Enviroment} (h : env.hashFactory = env'.hashFactory)
    (skips : Nat → BlockId → Bool) (i : Nat) (s : Skipping) (items : List Buffer) :
    skipRequestedBlocks env skips i s items = skipRequestedBlocks env' skips i s items := by
  have hhash : getHashFromBlock env = getHashFromBlock env' := by
    have htype : env.hashType = env'.hashType := congrFun h []
    funext block
    rw [getHashFromBlock, getHashFromBlock, htype]
  have hstep : ∀ (skip : BlockId → Bool) s b, Skipping.step env skip s b = s.step env' skip b := by
    intro skip s b
    simp only [Skipping.step, hhash]
  induction items generalizing i s with
  | nil => rfl
  | cons b rest ih => simp only [skipRequestedBlocks, hstep, ih]

-- With nothing asked for, everything is sent.
theorem skipRequestedBlocks_none (env : Enviroment) (items : List Buffer) (i : Nat) (s : Skipping)
    (hnone : s.skippingAt = none) (hall : ∀ entry ∈ s.stack, entry.2 = true) :
    skipRequestedBlocks env (fun _ _ => false) i s items = items := by
  have houtermost : ∀ stack, Skipping.outermostSkipped (fun _ => false) stack = none := by
    intro stack
    have hfind : ∀ entry ∈ stack.reverse, ((truthy entry.1).any fun _ => false) = false := by
      intro entry _
      cases truthy entry.1 <;> rfl
    rw [Skipping.outermostSkipped, List.findIdx?_eq_none_iff.mpr hfind]
    rfl
  induction items generalizing i s with
  | nil => rfl
  | cons b rest ih =>
      obtain ⟨stack, skippingAt⟩ := s
      obtain rfl : skippingAt = none := hnone
      have hstart : ∀ blockId, Skipping.step.startBlock (fun _ => false) ⟨stack, none⟩ b blockId =
          (⟨(blockId, true) :: stack, none⟩, [b]) := by
        intro blockId
        simp only [Skipping.step.startBlock, if_true, houtermost]
      have hmore : ∀ entry : Option BlockId × Bool, entry.2 = true →
          ∀ other ∈ entry :: stack, other.2 = true := by
        intro entry hentry other hother
        rcases List.mem_cons.mp hother with rfl | hother
        · exact hentry
        · exact hall other hother
      cases hblock : b.block with
      | none =>
          have hstep : Skipping.step env (fun _ => false) ⟨stack, none⟩ b = (⟨stack, none⟩, [b]) := by
            simp only [Skipping.step, hblock, houtermost]
            rfl
          simp only [skipRequestedBlocks, hstep]
          exact congrArg (b :: ·) (ih (i + 1) ⟨stack, none⟩ rfl hall)
      | some block =>
          cases stack with
          | nil =>
              have hstep : Skipping.step env (fun _ => false) ⟨[], none⟩ b =
                  (⟨[(getHashFromBlock env block, true)], none⟩, [b]) := by
                simp only [Skipping.step, hblock, hstart]
              simp only [skipRequestedBlocks, hstep]
              exact congrArg (b :: ·) (ih (i + 1) _ rfl (hmore _ rfl))
          | cons top stack =>
              obtain ⟨top, opened⟩ := top
              obtain rfl : opened = true := hall _ (List.mem_cons_self ..)
              by_cases htop : top = getHashFromBlock env block
              · have hstep : Skipping.step env (fun _ => false) ⟨(top, true) :: stack, none⟩ b =
                    (⟨stack, none⟩, [b]) := by
                  simp only [Skipping.step, hblock, if_pos htop, if_true, reduceCtorEq, if_false]
                simp only [skipRequestedBlocks, hstep]
                exact congrArg (b :: ·) (ih (i + 1) ⟨stack, none⟩ rfl fun entry hentry =>
                  hall entry (List.mem_cons_of_mem _ hentry))
              · have hstep : Skipping.step env (fun _ => false) ⟨(top, true) :: stack, none⟩ b =
                    (⟨(getHashFromBlock env block, true) :: (top, true) :: stack, none⟩, [b]) := by
                  simp only [Skipping.step, hblock, if_neg htop, hstart]
                simp only [skipRequestedBlocks, hstep]
                exact congrArg (b :: ·) (ih (i + 1) _ rfl (hmore _ rfl))

-- The stream of one object, with what its peer has asked for.
theorem serializeToBuffer_skips {sender : Sender} {stored : Stored} {type : Field} {index : Int}
    (hindex : sender.indexOf [.dir stored type] type = some index)
    {items : List Buffer} (hread : readFromRegistry sender.env sender.registry stored = .pure items)
    (skips : Nat → Nat → BlockId → Bool) :
    serializeToBuffer { sender with skips := some skips } [.dir stored type] =
      .pure ({ head := some ⟨index⟩ } :: skipRequestedBlocks sender.env (skips 0) 0 {} items ++
        [separatorBuffer]) := by
  have hall : ({ sender with skips := some skips } : Sender).allIndices [.dir stored type] =
      sender.allIndices [.dir stored type] := rfl
  cases hindices : sender.allIndices [.dir stored type] with
  | error e =>
      rw [Sender.indexOf, hindices] at hindex
      cases hindex
  | ok indices =>
      rw [Sender.indexOf, hindices] at hindex
      have hlookup : (Sender.reversed indices).lookup type = some index := hindex
      simp only [serializeToBuffer, hall, hindices, Sender.payload, Outgoing.type, hlookup,
        Sender.sendFile, Sender.sendStored, hread]
      simp only [Yielded.andThen, Yielded.pure, List.append_nil, List.singleton_append]

theorem closed_skip {requests : List Buffer} (h : ∀ b ∈ requests, b.skip = none) :
    ∀ b ∈ requests ++ [separatorBuffer], b.skip = none := by
  intro b hb
  rcases List.mem_append.mp hb with hb | hb
  · exact h b hb
  · rw [List.mem_singleton.mp hb]
    rfl

-- What a receiver that can ask makes of one message for the disk.
theorem parseFromBuffer_dir {receiver : Receiver} (hd : receiver.env.Digests)
    (hcorrect : receiver.isCorrect = true) (hcontrol : receiver.control = true) {index : Int}
    {type : Field} (hfield : receiver.allIndices.lookup index = some type)
    (hmode : receiver.mode index = false) {w : World} (hw : w.Sound receiver.env)
    {requests : List Buffer} {read : Forest} (hcarries : Carries receiver.env false requests read [])
    (hplain : ∀ b ∈ requests, b.skip = none) :
    let parsed := parseFromBuffer receiver { w with requests := { head := some ⟨index⟩ } :: requests }
    parsed.2.asked = askedBy (absorb receiver.env true w.known {} read) ∧
      ∀ k stored, absorbDir receiver.env true w.known read = .ok (k, stored) →
        parsed.2.registry = k.registry ∧
          ∃ path, parsed.1 = .pure [.dir { dir := path, stored, type }] := by
  intro parsed
  have hrun : parsed =
      receiver.run { w with requests := { head := some ⟨index⟩ } :: requests } :=
    parseFromBuffer_run hcorrect _ fun b hb =>
      (List.mem_cons.mp hb).elim (fun h => h ▸ rfl) (hplain b)
  have h := @run_dir receiver hd { w with requests := { head := some ⟨index⟩ } :: requests }
    ⟨hw.addressed, hw.fresh⟩ ⟨index⟩ requests rfl read hcarries type hfield hmode
  rw [hcontrol] at h
  rw [hrun]
  exact h

-- Requests for what the receiver has asked for by then come in time.
theorem timely_of_asked {receiver : Receiver} (hd : receiver.env.Digests)
    (hcorrect : receiver.isCorrect = true) (hcontrol : receiver.control = true) {index : Int}
    {type : Field} (hfield : receiver.allIndices.lookup index = some type)
    (hmode : receiver.mode index = false) {w : World} (hw : w.Sound receiver.env) {items : List Buffer}
    (hplain : ∀ b ∈ items, b.skip = none) {skips : Nat → BlockId → Bool}
    (hskips : ∀ i < items.length, ∀ id, skips i id = true →
      let sent : List Buffer := { head := some ⟨index⟩ } ::
        skipRequestedBlocks receiver.env skips 0 {} (items.take (i + 1))
      id ∈ (parseFromBuffer receiver { w with requests := sent }).2.asked) :
    Timely receiver.env skips 0 {} [] w.known {} items := by
  intro n hn id hskip cut hcut hsent
  have hlate := hskips n hn id (by rwa [Nat.zero_add] at hskip)
  have hsub : ∀ b ∈ cut.stream receiver.env, b.skip = none := by
    rw [hsent]
    exact fun b hb => hplain b
      (List.mem_of_mem_take (skipRequestedBlocks_subset _ _ _ _ _ hb))
  rw [← (parseFromBuffer_dir hd hcorrect hcontrol hfield hmode hw (carries_cut cut hcut) hsub).1,
    hsent]
  exact hlate

-- With the same blocks and the same parts the directory is the same.
theorem absorbDir_pruned {env : Enviroment} {forest pruned : Forest} {k₀ k k₁ k' : Known} {q : Part}
    {received : Stored} (habsorbDir : absorbDir env true k₀ forest = .ok (k, received))
    (habsorb : absorb env true k₀ {} forest = .ok (k₁, q))
    (habsorb' : absorb env true k₀ {} pruned = .ok (k', q))
    (hregistry : k'.registry = k₁.registry) :
    absorbDir env true k₀ pruned = .ok ({ k with asked := k'.asked }, received) := by
  rw [absorbDir, habsorb] at habsorbDir
  rw [absorbDir, habsorb']
  simp only [ok_bind, hregistry] at habsorbDir ⊢
  split at habsorbDir
  · cases habsorbDir
  · obtain ⟨rfl, rfl⟩ := Prod.mk.inj (Except.ok.inj habsorbDir)
    simp only [← hregistry]

-- Skipping never changes the answer: whenever requests for what the receiver has asked for
-- reach the sender, one object and the same blocks arrive as when none of them does.
theorem parseFromBuffer_skips (sender : Sender) (receiver : Receiver) (stored : Stored)
    (type : Field) (index : Int) (skips : Nat → BlockId → Bool) (w : World)
    (hd : sender.env.Digests) (hsame : sender.env.hashFactory = receiver.env.hashFactory)
    (hdepth : 1 ≤ sender.env.blockDepth ∧ sender.env.blockDepth ≤ MAX_BLOCK_NESTING)
    (hsender : sender.registry.Correct sender.env) (hstored : stored.Complete sender.registry)
    (hindex : sender.indexOf [.dir stored type] type = some index)
    (hfield : receiver.allIndices.lookup index = some type)
    (hmode : receiver.indices ≠ [] ∧ receiver.partitionsMessageMode = .inl false)
    (hcontrol : receiver.control = true)
    (hreceiver : w.registry.ContentAddressed receiver.env)
    (hagrees : sender.registry.Agrees w.registry) (hscratch : w.scratch = [])
    (hasked : ∀ id ∈ w.asked, w.registry.blockExists id = true)
    (hskips : let items := (readFromRegistry sender.env sender.registry stored).items
      ∀ i < items.length, ∀ id, skips i id = true →
        let sent : List Buffer := { head := some ⟨index⟩ } ::
          skipRequestedBlocks sender.env skips 0 {} (items.take (i + 1))
        id ∈ (parseFromBuffer receiver { w with requests := sent }).2.asked) :
    let silent := serializeToBuffer { sender with skips := some fun _ _ _ => false }
      [.dir stored type]
    let skipped := serializeToBuffer { sender with skips := some fun _ => skips } [.dir stored type]
    let outcome := parseFromBuffer receiver { w with requests := silent.items }
    let outcome' := parseFromBuffer receiver { w with requests := skipped.items }
    silent.raised = none ∧ skipped.raised = none ∧
      outcome'.2.registry = outcome.2.registry ∧
      ∃ dir dir', outcome.1 = .pure [.dir dir] ∧ outcome'.1 = .pure [.dir dir'] ∧
        dir'.stored = dir.stored ∧ dir'.type = dir.type ∧
        Delivered sender.registry outcome'.2.registry (.dir stored type) dir' := by
  intro silent skipped outcome outcome'
  obtain ⟨forest, hread, hframed⟩ := readFromRegistry_framed hd hsender hdepth.2 hstored
  rw [stream_congr hsame] at hread
  have hitems : (readFromRegistry sender.env sender.registry stored).items =
      forest.stream receiver.env := by rw [hread]; rfl
  have hcorrect : receiver.isCorrect = true := by
    simp [Receiver.isCorrect, hmode.1, hmode.2]
  have hdr : receiver.env.Digests := fun content => hsame ▸ hd content
  have hnoskip : ∀ b ∈ forest.stream receiver.env, b.skip = none := by
    rw [← hitems]
    exact @sendStored_skip { sender with skips := none } 0 stored
  have hsound : w.Sound receiver.env :=
    ⟨hreceiver, fun path hpath => by simp [hscratch] at hpath⟩
  have hindexMode : receiver.mode index = false := by simp only [Receiver.mode, hmode.2]
  -- what the receiver makes of the whole object, and what of it with the blocks left out
  have hcontents : sender.registry.ContentAddressed receiver.env := by
    intro id stored hl
    rw [← hsame]
    exact hsender.addressed id stored hl
  obtain ⟨k, received, habsorbDir, -, -, -, hmirrors⟩ := absorbDir_faithful true hcontents hframed
    w.known ⟨hreceiver, hagrees⟩ (w.registry.map Prod.fst) (fun id => Registry.blockExists_iff_mem)
  obtain ⟨⟨k₁, q⟩, habsorb, -⟩ := bind_eq_ok.mp habsorbDir
  have htimely : Timely receiver.env skips 0 {} [] w.known {} (forest.stream receiver.env) := by
    apply timely_of_asked hdr hcorrect hcontrol hfield hindexMode hsound hnoskip
    intro i hi id hskip
    rw [← hitems, ← skipRequestedBlocks_congr hsame]
    exact hskips i (by rwa [hitems]) id hskip
  obtain ⟨pruned, k', hpruned, hstream, -, habsorb', hregistry⟩ := absorb_pruned skips hdr forest []
    0 [] w.known k₁ w.known {} q hframed.nests rfl habsorb rfl hasked (by simp) htimely
  have habsorbDir' := absorbDir_pruned habsorbDir habsorb habsorb' hregistry
  have hsilent : silent = .pure ({ head := some ⟨index⟩ } ::
      (forest.stream receiver.env ++ [separatorBuffer])) := by
    refine (serializeToBuffer_skips hindex hread _).trans ?_
    rw [skipRequestedBlocks_none _ _ _ _ rfl (by simp)]
    rfl
  have hskipped : skipped = .pure ({ head := some ⟨index⟩ } ::
      (pruned.stream receiver.env ++ [separatorBuffer])) := by
    refine (serializeToBuffer_skips hindex hread _).trans ?_
    rw [skipRequestedBlocks_congr hsame, hstream]
    rfl
  have hleft : ∀ b ∈ pruned.stream receiver.env, b.skip = none := fun b hb =>
    hnoskip b (skipRequestedBlocks_subset _ _ _ _ _ (hstream ▸ hb))
  obtain ⟨-, hplain⟩ := parseFromBuffer_dir hdr hcorrect hcontrol hfield hindexMode hsound
    (carries_closed forest hframed.nests []) (closed_skip hnoskip)
  obtain ⟨-, hcut⟩ := parseFromBuffer_dir hdr hcorrect hcontrol hfield hindexMode hsound
    (carries_closed pruned hpruned []) (closed_skip hleft)
  obtain ⟨hregistry₁, path, houtcome⟩ := hplain k received habsorbDir
  obtain ⟨hregistry₂, path', houtcome'⟩ := hcut _ received habsorbDir'
  have heq : outcome = parseFromBuffer receiver { w with requests := { head := some ⟨index⟩ } ::
      (forest.stream receiver.env ++ [separatorBuffer]) } :=
    congrArg (fun stream => parseFromBuffer receiver { w with requests := stream.items }) hsilent
  have heq' : outcome' = parseFromBuffer receiver { w with requests := { head := some ⟨index⟩ } ::
      (pruned.stream receiver.env ++ [separatorBuffer]) } :=
    congrArg (fun stream => parseFromBuffer receiver { w with requests := stream.items }) hskipped
  rw [← heq] at hregistry₁ houtcome
  rw [← heq'] at hregistry₂ houtcome'
  refine ⟨by rw [hsilent]; rfl, by rw [hskipped]; rfl, hregistry₂.trans hregistry₁.symm, _, _,
    houtcome, houtcome', rfl, rfl, ?_⟩
  rw [hregistry₂]
  exact delivered_of_mirrors hstored hframed hmirrors path'

-- The request for the block around reaches the sender while the one inside is open.
theorem parseFromBuffer_skips_sample :
    let sender : Sender := .sample
    let receiver : Receiver := { Receiver.sample with control := true }
    let stored : Stored := .dir .around
    let skips : Nat → BlockId → Bool := fun i id => decide (3 ≤ i) && id == [1, 10, 2, 5, 6]
    let w : World := { registry := .sample, requests := [] }
    let silent := serializeToBuffer { sender with skips := some fun _ _ _ => false }
      [.dir stored (.message 7)]
    let skipped := serializeToBuffer { sender with skips := some fun _ => skips }
      [.dir stored (.message 7)]
    let outcome := parseFromBuffer receiver { w with requests := silent.items }
    let outcome' := parseFromBuffer receiver { w with requests := skipped.items }
    silent.raised = none ∧ skipped.raised = none ∧
      outcome'.2.registry = outcome.2.registry ∧
      ∃ dir dir', outcome.1 = .pure [.dir dir] ∧ outcome'.1 = .pure [.dir dir'] ∧
        dir'.stored = dir.stored ∧ dir'.type = dir.type ∧
        Delivered sender.registry outcome'.2.registry (.dir stored (.message 7)) dir' := by
  have hskips : let items := (readFromRegistry Sender.sample.env Sender.sample.registry
        (.dir .around)).items
      ∀ i < items.length, ∀ id : BlockId, (decide (3 ≤ i) && id == [1, 10, 2, 5, 6]) = true →
        let sent : List Buffer := { head := some ⟨1⟩ } ::
          skipRequestedBlocks Sender.sample.env
            (fun i id => decide (3 ≤ i) && id == [1, 10, 2, 5, 6]) 0 {} (items.take (i + 1))
        id ∈ (parseFromBuffer { Receiver.sample with control := true }
          { registry := .sample, requests := sent }).2.asked := by
    intro items i hi id hskip sent
    obtain ⟨hlow, hid⟩ := Bool.and_eq_true_iff.mp hskip
    obtain rfl := eq_of_beq hid
    have hlength : items.length = 7 := by decide
    have hlow : 3 ≤ i := of_decide_eq_true hlow
    rw [hlength] at hi
    obtain rfl | rfl | rfl | rfl : i = 3 ∨ i = 4 ∨ i = 5 ∨ i = 6 := by omega
    all_goals decide
  exact parseFromBuffer_skips .sample { Receiver.sample with control := true } (.dir .around)
    (.message 7) 1 _ { registry := .sample, requests := [] } (fun _ => List.cons_ne_nil _ _) rfl
    ⟨by decide, by decide⟩ sample_correct around_complete (by decide) (by decide)
    ⟨List.cons_ne_nil _ _, rfl⟩ rfl Registry.sample_contentAddressed
    (fun id x y hx hy => Option.some.inj (hx.symm.trans hy)) rfl (fun id h => absurd h List.not_mem_nil)
    hskips

end Transfer

end BeeRpc
