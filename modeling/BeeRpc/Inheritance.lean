import BeeRpc.HashTypes

namespace BeeRpc

open Wire

-- The context that applies inside the block that `resolved` points at.
def inheritHashTypes (resolved : List Bytes) (inherited : Option (List Bytes) := none) : List Bytes :=
  resolved ++ (inherited.getD []).drop resolved.length

-- The context carried down a chain of pointers, from the top of a stored tree.
def descend : Option (List Bytes) → List Block → Except Err (Option (List Bytes))
  | context, [] => .ok context
  | context, block :: rest => do
      let resolved ← resolveHashTypes block context
      descend (some (inheritHashTypes resolved context)) rest

-- The type that a pointer states itself at an index.
def Block.states (block : Block) (index : Nat) : Option Bytes :=
  (block.hashes[index]?.map (·.type)).filter (· ≠ [])

-- The type that the nearest pointer of a chain states there.
def nearest (chain : List Block) (index : Nat) : Option Bytes :=
  chain.reverse.findSome? fun block => block.states index

-- A pointer of the chain has a hash whose type is stated neither there nor above.
def Undeducible (chain : List Block) : Prop :=
  ∃ above block below index, chain = above ++ block :: below ∧ index < block.hashes.length ∧
    nearest (above ++ [block]) index = none

section

theorem nearest_concat (above : List Block) (block : Block) (index : Nat) :
    nearest (above ++ [block]) index = (block.states index).or (nearest above index) := by
  simp only [nearest, List.reverse_append, List.reverse_cons, List.reverse_nil, List.nil_append,
    List.singleton_append, List.findSome?_cons]
  cases block.states index <;> rfl

theorem states_of_hash {block : Block} {index : Nat} {hash : Hash}
    (hhash : block.hashes[index]? = some hash) :
    block.states index = (some hash.type).filter (· ≠ []) := by
  simp [Block.states, hhash]

-- Nothing is stated past a pointer's last hash.
theorem states_past {block : Block} {index : Nat} (hpast : block.hashes.length ≤ index) :
    block.states index = none := by
  simp [Block.states, hpast]

theorem nearest_ne_nil {chain : List Block} {index : Nat} {type : Bytes}
    (hnearest : nearest chain index = some type) : type ≠ [] := by
  obtain ⟨block, -, hstates⟩ := List.exists_of_findSome?_eq_some hnearest
  unfold Block.states at hstates
  rw [Option.filter_eq_some_iff] at hstates
  simpa using hstates.2

-- What a context has at an index, if that says anything.
def known (inherited : List Bytes) (index : Nat) : Option Bytes :=
  inherited[index]?.filter (· ≠ [])

theorem resolveLoop_cons (inherited : List Bytes) (index : Nat) (hash : Hash) (rest : List Hash) :
    resolveLoop inherited index (hash :: rest) =
      match ((some hash.type).filter (· ≠ [])).or (known inherited index) with
      | none => .error (.undeducibleHashType index inherited.length)
      | some type => (resolveLoop inherited (index + 1) rest).map (type :: ·) := by
  rw [resolveLoop]
  by_cases htype : hash.type = []
  · simp only [htype, ne_eq, not_true_eq_false, if_false, known, Option.filter_some, decide_false,
      Option.none_or, Bool.false_eq_true]
    cases hinherited : inherited[index]? with
    | none => rfl
    | some type =>
        by_cases hempty : type = []
        · subst hempty
          rfl
        · simp only [hempty, not_false_eq_true, if_true, Option.filter_some, decide_true]
          cases resolveLoop inherited (index + 1) rest <;> rfl
  · simp only [htype, ne_eq, not_false_eq_true, if_true, Option.filter_some, decide_true,
      Option.some_or]
    cases resolveLoop inherited (index + 1) rest <;> rfl

-- Each hash has its own type or that of the context; the first that has neither raises.
theorem resolveLoop_deduces (inherited : List Bytes) (hashes : List Hash) (index : Nat) :
    (∃ types, resolveLoop inherited index hashes = .ok types ∧ types.length = hashes.length ∧
        ∀ j hash, hashes[j]? = some hash →
          types[j]? = ((some hash.type).filter (· ≠ [])).or (known inherited (index + j)) ∧
            types[j]? ≠ none) ∨
      ∃ i, resolveLoop inherited index hashes = .error (.undeducibleHashType i inherited.length) ∧
        ∃ j hash, hashes[j]? = some hash ∧
          ((some hash.type).filter (· ≠ [])).or (known inherited (index + j)) = none := by
  induction hashes generalizing index with
  | nil => exact Or.inl ⟨[], rfl, rfl, fun j hash h => by simp at h⟩
  | cons hash rest ih =>
      rw [resolveLoop_cons]
      cases hfirst : ((some hash.type).filter (· ≠ [])).or (known inherited index) with
      | none => exact Or.inr ⟨index, rfl, 0, hash, rfl, hfirst⟩
      | some type =>
          rcases ih (index + 1) with ⟨types, htypes, hlength, hall⟩ | ⟨i, hraises, j, other, hother, hnone⟩
          · refine Or.inl ⟨type :: types, by rw [htypes]; rfl, congrArg Nat.succ hlength, ?_⟩
            intro j other hother
            cases j with
            | zero =>
                obtain rfl := Option.some.inj hother
                exact ⟨hfirst.symm, fun h => by cases h⟩
            | succ j =>
                have h := hall j other hother
                rwa [Nat.add_right_comm, Nat.add_assoc] at h
          · refine Or.inr ⟨i, by rw [hraises]; rfl, j + 1, other, hother, ?_⟩
            rwa [Nat.add_right_comm, Nat.add_assoc] at hnone

-- A context that tells exactly what the chain above it states.
def Speaks (context : Option (List Bytes)) (above : List Block) : Prop :=
  ∀ index, (context.getD [])[index]? = nearest above index

theorem Speaks.none : Speaks none [] := by
  intro index
  simp [nearest]

theorem Speaks.known {context : Option (List Bytes)} {above : List Block}
    (hspeaks : Speaks context above) (index : Nat) :
    BeeRpc.known (context.getD []) index = nearest above index := by
  unfold BeeRpc.known
  rw [hspeaks index]
  cases hnearest : nearest above index with
  | none => rfl
  | some type => simp [nearest_ne_nil hnearest]

-- One pointer down: either all its hashes have a type now, and the context it leaves
-- tells what the longer chain states, or one of them has none and the step raises.
theorem Speaks.step {context : Option (List Bytes)} {above : List Block}
    (hspeaks : Speaks context above) (block : Block) :
    (∃ resolved, resolveHashTypes block context = .ok resolved ∧
        Speaks (some (inheritHashTypes resolved context)) (above ++ [block]) ∧
        ∀ index < block.hashes.length, nearest (above ++ [block]) index ≠ Option.none) ∨
      ∃ i n, resolveHashTypes block context = .error (.undeducibleHashType i n) ∧
        ∃ index < block.hashes.length, nearest (above ++ [block]) index = Option.none := by
  have hown : ∀ index hash, block.hashes[index]? = some hash →
      ((some hash.type).filter (· ≠ [])).or (BeeRpc.known (context.getD []) (0 + index)) =
        nearest (above ++ [block]) index := by
    intro index hash hhash
    rw [Nat.zero_add, hspeaks.known, nearest_concat, states_of_hash hhash]
  rcases resolveLoop_deduces (context.getD []) block.hashes 0 with
    ⟨resolved, hok, hlength, hall⟩ | ⟨i, hraises, index, hash, hhash, hnone⟩
  · have hwithin : ∀ index < block.hashes.length,
        resolved[index]? = nearest (above ++ [block]) index ∧ resolved[index]? ≠ Option.none := by
      intro index hindex
      have hhash := List.getElem?_eq_getElem hindex
      have h := hall index _ hhash
      rwa [hown index _ hhash] at h
    refine Or.inl ⟨resolved, hok, ?_, fun index hindex => (hwithin index hindex).1 ▸
      (hwithin index hindex).2⟩
    intro index
    show (resolved ++ (context.getD []).drop resolved.length)[index]? = _
    by_cases hindex : index < block.hashes.length
    · rw [List.getElem?_append_left (by omega), (hwithin index hindex).1]
    · have hpast : block.hashes.length ≤ index := by omega
      rw [List.getElem?_append_right (by omega), List.getElem?_drop, nearest_concat,
        states_past hpast, Option.none_or, ← hspeaks index]
      congr 1
      omega
  · refine Or.inr ⟨i, _, hraises, index, ?_, (hown index hash hhash).symm.trans hnone⟩
    exact (List.getElem?_eq_some_iff.mp hhash).1

-- The chain below `above`, whose pointers all have their types.
theorem descend_run (above chain : List Block) {context : Option (List Bytes)}
    (hspeaks : Speaks context above)
    (hfine : ¬ Undeducible above) :
    (∃ last, descend context chain = .ok last ∧ Speaks last (above ++ chain) ∧
        ¬ Undeducible (above ++ chain)) ∨
      ∃ i n, descend context chain = .error (.undeducibleHashType i n) ∧
        Undeducible (above ++ chain) := by
  induction chain generalizing above context with
  | nil => exact Or.inl ⟨context, rfl, by simpa using hspeaks, by simpa using hfine⟩
  | cons block chain ih =>
      have hchain : above ++ block :: chain = (above ++ [block]) ++ chain := by simp
      rcases hspeaks.step block with ⟨resolved, hok, hnext, hall⟩ | ⟨i, n, hraises, index, hindex, hnone⟩
      · have hstill : ¬ Undeducible (above ++ [block]) := by
          rintro ⟨front, p, below, index, heq, hindex, hnone⟩
          rcases List.eq_nil_or_concat below with rfl | ⟨below', q, rfl⟩
          · obtain ⟨rfl, hp⟩ := List.append_inj' heq rfl
            obtain rfl := List.head_eq_of_cons_eq hp
            exact hall index hindex hnone
          · have heq' : above ++ [block] = (front ++ p :: below') ++ [q] := by simpa using heq
            obtain ⟨rfl, -⟩ := List.append_inj' heq' rfl
            exact hfine ⟨front, p, below', index, rfl, hindex, hnone⟩
        have hdescend : descend context (block :: chain) =
            descend (some (inheritHashTypes resolved context)) chain := by
          rw [descend, hok]
          rfl
        rw [hdescend, hchain]
        exact ih (above ++ [block]) hnext hstill
      · refine Or.inr ⟨i, n, ?_, above, block, chain, index, rfl, hindex, hnone⟩
        rw [descend, hraises]
        rfl

-- Every index of the last pointer has the type that the nearest pointer of the chain
-- states there, and the way down raises exactly where one has none.
theorem descend_inherits (chain : List Block) :
    (∀ context, descend none chain = .ok context →
      (∀ index, (context.getD [])[index]? = nearest chain index) ∧
        ∀ above last, chain = above ++ [last] → ∀ index < last.hashes.length,
          ∃ type, nearest chain index = some type) ∧
    ((∃ context, descend none chain = .ok context) ↔ ¬ Undeducible chain) ∧
    ((∃ i n, descend none chain = .error (.undeducibleHashType i n)) ↔ Undeducible chain) := by
  have hempty : ¬ Undeducible [] := by
    rintro ⟨above, block, below, index, heq, -⟩
    simp at heq
  rcases descend_run [] chain Speaks.none hempty with ⟨last, hok, hspeaks, hfine⟩ | ⟨i, n, hraises, hunded⟩
  · refine ⟨?_, ⟨fun _ => hfine, fun _ => ⟨last, hok⟩⟩, ⟨?_, fun h => absurd h hfine⟩⟩
    · intro context hcontext
      obtain rfl := Except.ok.inj (hok.symm.trans hcontext)
      refine ⟨hspeaks, ?_⟩
      intro above block hchain index hindex
      cases hnearest : nearest chain index with
      | some type => exact ⟨type, rfl⟩
      | none => exact absurd ⟨above, block, [], index, hchain, hindex, hchain ▸ hnearest⟩ hfine
    · rintro ⟨i, n, hraises⟩
      rw [hok] at hraises
      cases hraises
  · refine ⟨?_, ⟨?_, fun h => absurd hunded h⟩, ⟨fun _ => hunded, fun _ => ⟨i, n, hraises⟩⟩⟩
    · intro context hcontext
      rw [hraises] at hcontext
      cases hcontext
    · rintro ⟨context, hcontext⟩
      rw [hraises] at hcontext
      cases hcontext

end

end BeeRpc
