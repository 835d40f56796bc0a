import BeeRpc.Registry
import BeeRpc.Wire.Document
import BeeRpc.Naming.Dict

namespace BeeRpc

open Wire

-- The dictionary of utils.create_lengths_tree, first entry first: under a position
-- stands the block whose length varint it is, or the dictionary of the positions
-- inside the field.
inductive LengthsTree where
  | nil
  | leaf (key : Nat) (id : BlockId) (rest : LengthsTree)
  | node (key : Nat) (children rest : LengthsTree)
  deriving Repr, DecidableEq

namespace LengthsTree

-- `key in tree`, and `tree[key]`.
def find (p : Nat) : LengthsTree → Option (BlockId ⊕ LengthsTree)
  | nil => none
  | leaf key id rest => if key = p then some (.inl id) else rest.find p
  | node key children rest => if key = p then some (.inr children) else rest.find p

def add (p : Nat) (kid : BlockId ⊕ LengthsTree) (rest : LengthsTree) : LengthsTree :=
  match kid with
  | .inl id => leaf p id rest
  | .inr children => node p children rest

-- `tree[p] = kid`: in place under a key that is there, at the end under a new one.
def put (p : Nat) (kid : BlockId ⊕ LengthsTree) : LengthsTree → LengthsTree
  | nil => add p kid nil
  | leaf key id rest => if key = p then add p kid rest else leaf key id (rest.put p kid)
  | node key children rest =>
      if key = p then add p kid rest else node key children (rest.put p kid)

def erase (p : Nat) : LengthsTree → LengthsTree
  | nil => nil
  | leaf key id rest => if key = p then rest else leaf key id (rest.erase p)
  | node key children rest => if key = p then rest else node key children (rest.erase p)

-- One chain of positions: the walk down to its last position, with the levels that
-- are missing made on the way.
def insert (id : BlockId) : List Nat → LengthsTree → Except Err LengthsTree
  | [], _ => .error .indexError
  | [p], tree => .ok (tree.put p (.inl id))
  | p :: q :: more, tree =>
      match tree.find p with
      | none => do
          let inner ← insert id (q :: more) nil
          return tree.put p (.inr inner)
      | some (.inr children) => do
          let inner ← insert id (q :: more) children
          return tree.put p (.inr inner)
      | some (.inl _) => .error .notADict

def build (tree : LengthsTree) (chains : List (BlockId × List Nat)) : Except Err LengthsTree :=
  chains.foldlM (fun tree entry => tree.insert entry.1 entry.2) tree

-- The blocks that stand under some position.
def leafIds : LengthsTree → List BlockId
  | nil => []
  | leaf _ id rest => id :: rest.leafIds
  | node _ children rest => children.leafIds ++ rest.leafIds

-- A recursion over the tree that first handles what is under a key and then goes on
-- to the next key. `node` is given the run over the inner dictionary.
def collect {γ : Type} (leafRule : Nat → BlockId → Except Err γ)
    (nodeRule : Nat → Except Err (List γ) → Except Err γ) : LengthsTree → Except Err (List γ)
  | nil => .ok []
  | leaf key id rest => do
      let first ← leafRule key id
      let more ← rest.collect leafRule nodeRule
      return first :: more
  | node key children rest => do
      let first ← nodeRule key (children.collect leafRule nodeRule)
      let more ← rest.collect leafRule nodeRule
      return first :: more

end LengthsTree

-- utils.create_lengths_tree
def createLengthsTree (pointerContainer : Naming.Dict BlockId (List (List Nat))) :
    Except Err LengthsTree :=
  LengthsTree.build .nil pointerContainer.ungroup

namespace LengthsTree

@[simp] theorem find_add (p q : Nat) (kid : BlockId ⊕ LengthsTree) (rest : LengthsTree) :
    (add p kid rest).find q = if p = q then some kid else rest.find q := by
  cases kid <;> rfl

@[simp] theorem erase_add (p q : Nat) (kid : BlockId ⊕ LengthsTree) (rest : LengthsTree) :
    (add p kid rest).erase q = if p = q then rest else add p kid (rest.erase q) := by
  cases kid <;> simp only [add, erase]

@[simp] theorem put_add (p q : Nat) (kid new : BlockId ⊕ LengthsTree) (rest : LengthsTree) :
    (add p kid rest).put q new = if p = q then add q new rest else add p kid (rest.put q new) := by
  cases kid <;> simp only [add, put]

-- Recursion over the keys, whatever stands under them.
theorem rec_add {P : LengthsTree → Prop} (nil : P nil)
    (add : ∀ p kid rest, P rest → P (add p kid rest)) (tree : LengthsTree) : P tree := by
  induction tree with
  | nil => exact nil
  | leaf key id rest ih => exact add key (.inl id) rest ih
  | node key children rest _ ih => exact add key (.inr children) rest ih

attribute [local simp] find put erase leafIds

theorem find_put (p q : Nat) (kid : BlockId ⊕ LengthsTree) (tree : LengthsTree) :
    (tree.put p kid).find q = if p = q then some kid else tree.find q := by
  induction tree using rec_add with
  | nil => simp
  | add key old rest ih =>
      by_cases hk : key = p
      · subst hk
        by_cases hq : key = q <;> simp [hq]
      · by_cases hq : key = q
        · subst hq
          simp [hk, Ne.symm hk]
        · simp [hk, hq, ih]

theorem erase_put_self (p : Nat) (kid : BlockId ⊕ LengthsTree) (tree : LengthsTree) :
    (tree.put p kid).erase p = tree.erase p := by
  induction tree using rec_add with
  | nil => simp
  | add key old rest ih =>
      by_cases hk : key = p
      · simp [hk]
      · simp [hk, ih]

theorem erase_put_ne {p q : Nat} (h : p ≠ q) (kid : BlockId ⊕ LengthsTree)
    (tree : LengthsTree) : (tree.put p kid).erase q = (tree.erase q).put p kid := by
  induction tree using rec_add with
  | nil => simp [h]
  | add key old rest ih =>
      by_cases hk : key = p
      · subst hk
        simp [h]
      · by_cases hq : key = q
        · subst hq
          simp [hk]
        · simp [hk, hq, ih]

theorem find_erase_ne {p q : Nat} (h : p ≠ q) (tree : LengthsTree) :
    (tree.erase q).find p = tree.find p := by
  induction tree using rec_add with
  | nil => rfl
  | add key old rest ih =>
      by_cases hq : key = q
      · subst hq
        simp [Ne.symm h]
      · by_cases hp : key = p
        · subst hp
          simp [hq]
        · simp [hq, hp, ih]

def kidIds : BlockId ⊕ LengthsTree → List BlockId
  | .inl id => [id]
  | .inr children => children.leafIds

@[simp] theorem leafIds_add (p : Nat) (kid : BlockId ⊕ LengthsTree) (rest : LengthsTree) :
    (add p kid rest).leafIds = kidIds kid ++ rest.leafIds := by
  cases kid <;> rfl

theorem mem_leafIds_put {p : Nat} {kid : BlockId ⊕ LengthsTree} {tree : LengthsTree} {id : BlockId}
    (h : id ∈ (tree.put p kid).leafIds) : id ∈ kidIds kid ∨ id ∈ tree.leafIds := by
  induction tree using rec_add with
  | nil => simpa using h
  | add key old rest ih =>
      rw [put_add] at h
      by_cases hk : key = p
      · simp only [if_pos hk, leafIds_add, List.mem_append] at h ⊢
        tauto
      · simp only [if_neg hk, leafIds_add, List.mem_append] at h ⊢
        rcases h with h | h
        · exact Or.inr (Or.inl h)
        · exact (ih h).imp_right Or.inr

theorem mem_leafIds_of_find {p : Nat} {kid : BlockId ⊕ LengthsTree} {tree : LengthsTree}
    (h : tree.find p = some kid) : ∀ id ∈ kidIds kid, id ∈ tree.leafIds := by
  induction tree using rec_add with
  | nil => cases h
  | add key old rest ih =>
      intro id hid
      rw [find_add] at h
      rw [leafIds_add, List.mem_append]
      by_cases hk : key = p
      · rw [if_pos hk] at h
        obtain rfl := Option.some.inj h
        exact Or.inl hid
      · rw [if_neg hk] at h
        exact Or.inr (ih h id hid)

theorem mem_leafIds_insert {id j : BlockId} (chain : List Nat) {tree result : LengthsTree}
    (h : insert id chain tree = .ok result) (hj : j ∈ result.leafIds) :
    j = id ∨ j ∈ tree.leafIds := by
  induction chain generalizing tree result with
  | nil => cases h
  | cons p tail ih =>
      cases tail with
      | nil =>
          obtain rfl := Except.ok.inj h
          exact (mem_leafIds_put hj).imp_left List.mem_singleton.mp
      | cons q more =>
          rw [insert] at h
          cases hf : tree.find p with
          | none =>
              rw [hf] at h
              obtain ⟨inner, hinner, h⟩ := bind_eq_ok.mp h
              obtain rfl := Except.ok.inj h
              rcases mem_leafIds_put hj with hj | hj
              · exact (ih hinner hj).imp_right fun hnil => absurd hnil List.not_mem_nil
              · exact Or.inr hj
          | some kid =>
              rw [hf] at h
              cases kid with
              | inl _ => cases h
              | inr children =>
                  obtain ⟨inner, hinner, h⟩ := bind_eq_ok.mp h
                  obtain rfl := Except.ok.inj h
                  rcases mem_leafIds_put hj with hj | hj
                  · exact (ih hinner hj).imp_right (mem_leafIds_of_find hf j)
                  · exact Or.inr hj

-- Under the positions stand blocks of the chains.
theorem mem_leafIds_build {j : BlockId} (chains : List (BlockId × List Nat))
    {tree result : LengthsTree} (h : build tree chains = .ok result) (hj : j ∈ result.leafIds) :
    j ∈ chains.map Prod.fst ∨ j ∈ tree.leafIds := by
  induction chains generalizing tree with
  | nil =>
      obtain rfl := Except.ok.inj h
      exact Or.inr hj
  | cons entry chains ih =>
      rw [build, List.foldlM_cons] at h
      obtain ⟨next, hnext, h⟩ := bind_eq_ok.mp h
      rcases ih h with hin | hin
      · exact Or.inl (List.mem_cons_of_mem _ hin)
      · exact (mem_leafIds_insert entry.2 hnext hin).imp_left fun he => by
          rw [he]
          exact List.mem_cons_self ..

-- What a chain makes of the kid it enters, its first position taken off.
def enter (id : BlockId) : List Nat → Option (BlockId ⊕ LengthsTree) →
    Except Err (BlockId ⊕ LengthsTree)
  | [], _ => .ok (.inl id)
  | q :: more, none => (insert id (q :: more) nil).map .inr
  | q :: more, some (.inr children) => (insert id (q :: more) children).map .inr
  | _ :: _, some (.inl _) => .error .notADict

theorem insert_cons (id : BlockId) (p : Nat) (tail : List Nat) (tree : LengthsTree) :
    insert id (p :: tail) tree = (enter id tail (tree.find p)).map (tree.put p) := by
  cases tail with
  | nil => rfl
  | cons q more =>
      cases hf : tree.find p with
      | none =>
          simp only [insert, hf, enter]
          cases insert id (q :: more) nil <;> rfl
      | some kid =>
          cases kid with
          | inl _ => simp [insert, hf, enter, Except.map]
          | inr children =>
              simp only [insert, hf, enter]
              cases insert id (q :: more) children <;> rfl

def enterAll (kid : Option (BlockId ⊕ LengthsTree)) (tails : List (BlockId × List Nat)) :
    Except Err (Option (BlockId ⊕ LengthsTree)) :=
  tails.foldlM (fun kid entry => (enter entry.1 entry.2 kid).map some) kid

-- The chains that begin at a position, without it, and those that do not.
def under (p : Nat) (chains : List (BlockId × List Nat)) : List (BlockId × List Nat) :=
  chains.filterMap fun entry =>
    match entry.2 with
    | [] => none
    | q :: tail => if q = p then some (entry.1, tail) else none

def beside (p : Nat) (chains : List (BlockId × List Nat)) : List (BlockId × List Nat) :=
  chains.filter fun entry => entry.2.head? ≠ some p

theorem build_cons (id : BlockId) (p : Nat) (tail : List Nat) (tree : LengthsTree)
    (more : List (BlockId × List Nat)) :
    build tree ((id, p :: tail) :: more) =
      (enter id tail (tree.find p)).bind fun kid => build (tree.put p kid) more := by
  simp only [build, List.foldlM_cons, insert_cons]
  cases enter id tail (tree.find p) <;> rfl

theorem enterAll_cons (id : BlockId) (tail : List Nat) (kid : Option (BlockId ⊕ LengthsTree))
    (more : List (BlockId × List Nat)) :
    enterAll kid ((id, tail) :: more) =
      (enter id tail kid).bind fun new => enterAll (some new) more := by
  simp only [enterAll, List.foldlM_cons]
  cases enter id tail kid <;> rfl

theorem under_cons (p q : Nat) (id : BlockId) (tail : List Nat)
    (more : List (BlockId × List Nat)) :
    under p ((id, q :: tail) :: more) =
      if q = p then (id, tail) :: under p more else under p more := by
  by_cases h : q = p <;> simp [under, h]

theorem beside_cons (p q : Nat) (id : BlockId) (tail : List Nat)
    (more : List (BlockId × List Nat)) :
    beside p ((id, q :: tail) :: more) =
      if q = p then beside p more else (id, q :: tail) :: beside p more := by
  by_cases h : q = p <;> simp [beside, h]

-- Under each key stands what the chains through it make, and only they matter there.
theorem build_find (p : Nat) (chains : List (BlockId × List Nat)) (tree result : LengthsTree)
    (hne : ∀ entry ∈ chains, entry.2 ≠ []) (h : build tree chains = .ok result) :
    enterAll (tree.find p) (under p chains) = .ok (result.find p) := by
  induction chains generalizing tree with
  | nil =>
      obtain rfl := Except.ok.inj h
      rfl
  | cons entry more ih =>
      obtain ⟨id, chain⟩ := entry
      cases chain with
      | nil => exact absurd rfl (hne _ (List.mem_cons_self ..))
      | cons q tail =>
          have hmore := fun entry he => hne entry (List.mem_cons_of_mem _ he)
          rw [build_cons] at h
          rw [under_cons]
          cases he : enter id tail (tree.find q) with
          | error err => rw [he] at h; cases h
          | ok kid =>
              rw [he] at h
              have hrest := ih (tree.put q kid) hmore h
              rw [find_put] at hrest
              by_cases hq : q = p
              · subst hq
                rw [if_pos rfl] at hrest
                rw [if_pos rfl, enterAll_cons, he]
                exact hrest
              · rw [if_neg hq]
                rwa [if_neg hq] at hrest

theorem build_erase (p : Nat) (chains : List (BlockId × List Nat)) (tree result : LengthsTree)
    (hne : ∀ entry ∈ chains, entry.2 ≠ []) (h : build tree chains = .ok result) :
    build (tree.erase p) (beside p chains) = .ok (result.erase p) := by
  induction chains generalizing tree with
  | nil =>
      obtain rfl := Except.ok.inj h
      rfl
  | cons entry more ih =>
      obtain ⟨id, chain⟩ := entry
      cases chain with
      | nil => exact absurd rfl (hne _ (List.mem_cons_self ..))
      | cons q tail =>
          have hmore := fun entry he => hne entry (List.mem_cons_of_mem _ he)
          rw [build_cons] at h
          rw [beside_cons]
          cases he : enter id tail (tree.find q) with
          | error err => rw [he] at h; cases h
          | ok kid =>
              rw [he] at h
              have hrest := ih (tree.put q kid) hmore h
              by_cases hq : q = p
              · subst hq
                rw [if_pos rfl]
                rwa [erase_put_self] at hrest
              · rw [if_neg hq, build_cons, find_erase_ne hq, he]
                rwa [erase_put_ne hq] at hrest

theorem build_ok (chains : List (BlockId × List Nat)) (tree : LengthsTree)
    (hne : ∀ entry ∈ chains, entry.2 ≠ [])
    (h : ∀ p, ∃ kid, enterAll (tree.find p) (under p chains) = .ok kid) :
    ∃ result, build tree chains = .ok result := by
  induction chains generalizing tree with
  | nil => exact ⟨tree, rfl⟩
  | cons entry more ih =>
      obtain ⟨id, chain⟩ := entry
      cases chain with
      | nil => exact absurd rfl (hne _ (List.mem_cons_self ..))
      | cons q tail =>
          have hmore := fun entry he => hne entry (List.mem_cons_of_mem _ he)
          obtain ⟨final, hq⟩ := h q
          rw [under_cons, if_pos rfl, enterAll_cons] at hq
          rw [build_cons]
          cases he : enter id tail (tree.find q) with
          | error err => rw [he] at hq; cases hq
          | ok kid =>
              rw [he] at hq
              refine ih (tree.put q kid) hmore ?_
              intro p
              rw [find_put]
              by_cases hp : q = p
              · subst hp
                rw [if_pos rfl]
                exact ⟨final, hq⟩
              · obtain ⟨final, hfinal⟩ := h p
                rw [under_cons, if_neg hp] at hfinal
                exact ⟨final, by rwa [if_neg hp]⟩

-- Chains that go on below a key build the dictionary that stands under it.
theorem enterAll_inr (chains : List (BlockId × List Nat)) (tree : LengthsTree)
    (hne : ∀ entry ∈ chains, entry.2 ≠ []) :
    enterAll (some (.inr tree)) chains = (build tree chains).map fun t => some (.inr t) := by
  induction chains generalizing tree with
  | nil => rfl
  | cons entry more ih =>
      obtain ⟨id, chain⟩ := entry
      have hmore := fun entry he => hne entry (List.mem_cons_of_mem _ he)
      cases chain with
      | nil => exact absurd rfl (hne _ (List.mem_cons_self ..))
      | cons q tail =>
          rw [enterAll_cons, enter]
          cases hi : insert id (q :: tail) tree with
          | error err =>
              rw [build, List.foldlM_cons]
              simp only [hi]
              rfl
          | ok inner =>
              have hb : build tree ((id, q :: tail) :: more) = build inner more := by
                rw [build, List.foldlM_cons]
                simp only [hi]
                rfl
              rw [hb, ← ih inner hmore]
              rfl

theorem enterAll_none (chains : List (BlockId × List Nat)) (hnil : chains ≠ [])
    (hne : ∀ entry ∈ chains, entry.2 ≠ []) :
    enterAll none chains = (build nil chains).map fun t => some (.inr t) := by
  rw [← enterAll_inr chains nil hne]
  cases chains with
  | nil => exact absurd rfl hnil
  | cons entry more =>
      obtain ⟨id, chain⟩ := entry
      cases chain with
      | nil => exact absurd rfl (hne _ (List.mem_cons_self ..))
      | cons q tail => rfl

theorem under_beside {p q : Nat} (h : p ≠ q) (chains : List (BlockId × List Nat)) :
    under p (beside q chains) = under p chains := by
  induction chains with
  | nil => rfl
  | cons entry more ih =>
      obtain ⟨id, chain⟩ := entry
      cases chain with
      | nil => simpa [under, beside] using ih
      | cons r tail =>
          rw [beside_cons]
          by_cases hr : r = q
          · rw [if_pos hr, ih, under_cons, if_neg (by rw [hr]; exact Ne.symm h)]
          · rw [if_neg hr, under_cons, under_cons, ih]

theorem under_append (p : Nat) (left right : List (BlockId × List Nat)) :
    under p (left ++ right) = under p left ++ under p right := List.filterMap_append

theorem beside_append (p : Nat) (left right : List (BlockId × List Nat)) :
    beside p (left ++ right) = beside p left ++ beside p right := List.filter_append ..

theorem under_map_cons (p : Nat) (chains : List (BlockId × List Nat)) :
    under p (chains.map fun entry => (entry.1, p :: entry.2)) = chains := by
  simp [under, List.filterMap_map]

theorem beside_map_cons (p : Nat) (chains : List (BlockId × List Nat)) :
    beside p (chains.map fun entry => (entry.1, p :: entry.2)) = [] := by
  simp [beside, List.filter_map, Function.comp_def]

-- Chains that run beyond a position do not begin there.
theorem under_eq_nil (p : Nat) (chains : List (BlockId × List Nat))
    (h : ∀ entry ∈ chains, ∀ q ∈ entry.2, p < q) : under p chains = [] := by
  rw [under, List.filterMap_eq_nil_iff]
  intro entry he
  cases hc : entry.2 with
  | nil => rfl
  | cons q tail =>
      have := h entry he q (by simp [hc])
      simp only [ite_eq_right_iff, reduceCtorEq, imp_false]
      omega

theorem beside_eq_self (p : Nat) (chains : List (BlockId × List Nat))
    (h : ∀ entry ∈ chains, ∀ q ∈ entry.2, p < q) : beside p chains = chains := by
  rw [beside, List.filter_eq_self]
  intro entry he
  cases hc : entry.2 with
  | nil => simp
  | cons q tail =>
      have := h entry he q (by simp [hc])
      simp only [List.head?_cons, ne_eq, Option.some.injEq, decide_not, Bool.not_eq_true',
        decide_eq_false_iff_not]
      omega

-- Chains through a position, and others that run beyond it.
theorem split_key {p : Nat} {chains inner outer : List (BlockId × List Nat)}
    (hperm : chains.Perm (inner.map (fun entry => (entry.1, p :: entry.2)) ++ outer))
    (hbeyond : ∀ entry ∈ outer, ∀ q ∈ entry.2, p < q) :
    (under p chains).Perm inner ∧ (beside p chains).Perm outer := by
  constructor
  · have hunder : (under p chains).Perm (under p _) := hperm.filterMap _
    rwa [under_append, under_map_cons, under_eq_nil p outer hbeyond, List.append_nil] at hunder
  · have hbeside : (beside p chains).Perm (beside p _) := hperm.filter _
    rwa [beside_append, beside_map_cons, beside_eq_self p outer hbeyond,
      List.nil_append] at hbeside

section Collect

variable {γ ι : Type} (leafRule : Nat → BlockId → Except Err γ)
  (nodeRule : Nat → Except Err (List γ) → Except Err γ)

def collectKid (p : Nat) : BlockId ⊕ LengthsTree → Except Err γ
  | .inl id => leafRule p id
  | .inr children => nodeRule p (children.collect leafRule nodeRule)

theorem collect_add (p : Nat) (kid : BlockId ⊕ LengthsTree) (rest : LengthsTree) :
    (add p kid rest).collect leafRule nodeRule =
      (collectKid leafRule nodeRule p kid).bind fun first =>
        (rest.collect leafRule nodeRule).map (first :: ·) := by
  cases kid with
  | inl id =>
      simp only [add, collect, collectKid]
      cases leafRule p id with
      | error err => rfl
      | ok first => cases rest.collect leafRule nodeRule <;> rfl
  | inr children =>
      simp only [add, collect, collectKid]
      cases nodeRule p (children.collect leafRule nodeRule) with
      | error err => rfl
      | ok first => cases rest.collect leafRule nodeRule <;> rfl

-- Where a key stands among the others does not matter to what is collected.
theorem collect_find_erase (p : Nat) (tree : LengthsTree) (kid : BlockId ⊕ LengthsTree)
    (first : γ) (more : List γ) (hf : tree.find p = some kid)
    (hk : collectKid leafRule nodeRule p kid = .ok first)
    (he : (tree.erase p).collect leafRule nodeRule = .ok more) :
    ∃ all, tree.collect leafRule nodeRule = .ok all ∧ all.Perm (first :: more) := by
  induction tree using rec_add generalizing more with
  | nil => simp at hf
  | add key old rest ih =>
      by_cases hkey : key = p
      · subst hkey
        simp only [find_add, if_true, Option.some.injEq] at hf
        simp only [erase_add, if_true] at he
        subst hf
        exact ⟨first :: more, by rw [collect_add, hk, he]; rfl, List.Perm.refl _⟩
      · simp only [find_add, if_neg hkey] at hf
        simp only [erase_add, if_neg hkey] at he
        rw [collect_add] at he ⊢
        cases hold : collectKid leafRule nodeRule key old with
        | error err => rw [hold] at he; cases he
        | ok other =>
            rw [hold] at he
            cases hrest : (rest.erase p).collect leafRule nodeRule with
            | error err => rw [hrest] at he; cases he
            | ok others =>
                rw [hrest] at he
                obtain rfl := Except.ok.inj he
                obtain ⟨all, hall, hperm⟩ := ih others hf hrest
                refine ⟨other :: all, by rw [hall]; rfl, ?_⟩
                exact (hperm.cons other).trans (List.Perm.swap ..)

-- A property `P` of what is collected that follows the fields of a document, in any
-- order of the chains. `Q` is what the rules need to know of the fields; it passes from
-- a document to its parts.
structure Follows (name : ι → BlockId) (fill : ι → Bytes) (Q : Nat → Document ι → Prop)
    (P : Nat → Document ι → List γ → Prop) : Prop where
  inRaw : ∀ base bytes rest, Q base (.raw bytes rest) → Q (base + bytes.length) rest
  inRest : ∀ base tag body rest, Q base (.sub tag body rest) →
    Q (base + tag.length + Document.delimitedSize (body.size fill)) rest
  inBody : ∀ base tag body rest, body.holes ≠ [] → Q base (.sub tag body rest) →
    Q (base + tag.length + (Varint.encode (body.size fill)).length) body
  inHole : ∀ base tag i rest, Q base (.hole tag i rest) →
    Q (base + tag.length + Document.delimitedSize (fill i).length) rest
  nil : ∀ base, P base .nil []
  raw : ∀ base bytes rest more, P (base + bytes.length) rest more → P base (.raw bytes rest) more
  plain : ∀ base tag body rest more, body.holes = [] →
    P (base + tag.length + Document.delimitedSize (body.size fill)) rest more →
    P base (.sub tag body rest) more
  sub : ∀ base tag body rest inner, body.holes ≠ [] → Q base (.sub tag body rest) →
    P (base + tag.length + (Varint.encode (body.size fill)).length) body inner →
    ∃ first, nodeRule (base + tag.length) (.ok inner) = .ok first ∧
      ∀ more, P (base + tag.length + Document.delimitedSize (body.size fill)) rest more →
        P base (.sub tag body rest) (first :: more)
  hole : ∀ base tag i rest, Q base (.hole tag i rest) →
    ∃ first, leafRule (base + tag.length) (name i) = .ok first ∧
      ∀ more, P (base + tag.length + Document.delimitedSize (fill i).length) rest more →
        P base (.hole tag i rest) (first :: more)
  perm : ∀ base doc more more', more.Perm more' → P base doc more → P base doc more'

-- The chains of a document, with the block each hole stands for.
def chainsOf (name : ι → BlockId) (fill : ι → Bytes) (base : Nat) (doc : Document ι) :
    List (BlockId × List Nat) :=
  (doc.chains fill base).map fun entry => (name entry.1, entry.2)

theorem chainsOf_ne_nil (name : ι → BlockId) (fill : ι → Bytes) (base : Nat) (doc : Document ι) :
    ∀ entry ∈ chainsOf name fill base doc, entry.2 ≠ [] := by
  intro entry he
  obtain ⟨chain, hc, rfl⟩ := List.mem_map.mp he
  obtain ⟨inner, hi, rfl⟩ := List.mem_map.mp hc
  simpa using doc.spine_ne_nil fill base inner hi

theorem chainsOf_beyond (name : ι → BlockId) (fill : ι → Bytes) {p base : Nat} (h : p < base)
    (doc : Document ι) : ∀ entry ∈ chainsOf name fill base doc, ∀ q ∈ entry.2, p < q := by
  intro entry he q hq
  obtain ⟨chain, hc, rfl⟩ := List.mem_map.mp he
  obtain ⟨inner, hi, rfl⟩ := List.mem_map.mp hc
  obtain ⟨pair, hp, rfl⟩ := List.mem_map.mp hq
  exact h.trans_le (doc.spine_bounds fill base inner hi pair hp).1

theorem chainsOf_eq_nil (name : ι → BlockId) (fill : ι → Bytes) (base : Nat) (doc : Document ι) :
    chainsOf name fill base doc = [] ↔ doc.holes = [] := by
  rw [chainsOf, List.map_eq_nil_iff, ← List.map_eq_nil_iff (f := Prod.fst),
    Document.chains_holes]

theorem chainsOf_sub (name : ι → BlockId) (fill : ι → Bytes) (base : Nat) (tag : Bytes)
    (body rest : Document ι) :
    chainsOf name fill base (.sub tag body rest) =
      (chainsOf name fill (base + tag.length + (Varint.encode (body.size fill)).length) body).map
        (fun entry => (entry.1, (base + tag.length) :: entry.2)) ++
        chainsOf name fill (base + tag.length + Document.delimitedSize (body.size fill)) rest := by
  simp only [chainsOf, Document.chains_sub, List.map_append, List.map_map]
  rfl

-- The chains through a field go on in its body; the others begin behind it.
theorem split_sub {name : ι → BlockId} {fill : ι → Bytes} {base : Nat} {tag : Bytes}
    {body rest : Document ι} {chains : List (BlockId × List Nat)}
    (hperm : chains.Perm (chainsOf name fill base (.sub tag body rest))) :
    (under (base + tag.length) chains).Perm
        (chainsOf name fill (base + tag.length + (Varint.encode (body.size fill)).length) body) ∧
      (beside (base + tag.length) chains).Perm
        (chainsOf name fill (base + tag.length + Document.delimitedSize (body.size fill)) rest) := by
  rw [chainsOf_sub] at hperm
  refine split_key hperm (chainsOf_beyond name fill ?_ rest)
  have := Varint.encode_length_pos (body.size fill)
  simp only [Document.delimitedSize]
  omega

theorem split_hole {name : ι → BlockId} {fill : ι → Bytes} {base : Nat} {tag : Bytes} {i : ι}
    {rest : Document ι} {chains : List (BlockId × List Nat)}
    (hperm : chains.Perm (chainsOf name fill base (.hole tag i rest))) :
    under (base + tag.length) chains = [(name i, [])] ∧
      (beside (base + tag.length) chains).Perm
        (chainsOf name fill (base + tag.length + Document.delimitedSize (fill i).length) rest) := by
  rw [chainsOf, Document.chains_hole, List.map_cons] at hperm
  have hsplit := @split_key (base + tag.length) chains [(name i, [])] (chainsOf name fill _ rest)
    hperm (chainsOf_beyond name fill (by
      have := Varint.encode_length_pos (fill i).length
      simp only [Document.delimitedSize]
      omega) rest)
  exact ⟨hsplit.1.eq_singleton, hsplit.2⟩

theorem enterAll_under {name : ι → BlockId} {fill : ι → Bytes} {base : Nat} {body : Document ι}
    {chains : List (BlockId × List Nat)} (hb : body.holes ≠ [])
    (hperm : chains.Perm (chainsOf name fill base body)) :
    enterAll none chains = (build nil chains).map fun t => some (.inr t) := by
  refine enterAll_none _ ?_ fun entry he => chainsOf_ne_nil name fill _ body entry
    (hperm.mem_iff.mp he)
  intro hnil
  rw [hnil] at hperm
  exact hb ((chainsOf_eq_nil name fill _ body).mp hperm.symm.eq_nil)

theorem build_split {chains : List (BlockId × List Nat)} {p : Nat} {kid : BlockId ⊕ LengthsTree}
    {others : LengthsTree} (hne : ∀ entry ∈ chains, entry.2 ≠ [])
    (hkid : enterAll none (under p chains) = .ok (some kid))
    (hothers : build nil (beside p chains) = .ok others) :
    ∃ tree, build nil chains = .ok tree ∧ tree.find p = some kid ∧ tree.erase p = others := by
  have hne' : ∀ entry ∈ beside p chains, entry.2 ≠ [] :=
    fun entry he => hne entry (List.mem_of_mem_filter he)
  obtain ⟨tree, htree⟩ := build_ok chains nil hne (by
    intro q
    by_cases hq : q = p
    · subst hq
      exact ⟨some kid, hkid⟩
    · rw [← under_beside hq]
      exact ⟨others.find q, build_find q _ nil others hne' hothers⟩)
  refine ⟨tree, htree, ?_, ?_⟩
  · have := build_find p chains nil tree hne htree
    rw [show nil.find p = none from rfl, hkid] at this
    exact (Except.ok.inj this).symm
  · have := build_erase p chains nil tree hne htree
    rw [show nil.erase p = nil from rfl, hothers] at this
    exact (Except.ok.inj this).symm

-- What is collected under one key, and what is collected under the others.
theorem collect_split {p : Nat} {chains : List (BlockId × List Nat)} {kid : BlockId ⊕ LengthsTree}
    {others : LengthsTree} {first : γ} {more : List γ} (hne : ∀ entry ∈ chains, entry.2 ≠ [])
    (hkid : enterAll none (under p chains) = .ok (some kid))
    (hfirst : collectKid leafRule nodeRule p kid = .ok first)
    (hothers : build nil (beside p chains) = .ok others)
    (hmore : others.collect leafRule nodeRule = .ok more) :
    ∃ tree, build nil chains = .ok tree ∧
      ∃ all, tree.collect leafRule nodeRule = .ok all ∧ all.Perm (first :: more) := by
  obtain ⟨tree, htree, hfind, rfl⟩ := build_split hne hkid hothers
  exact ⟨tree, htree, collect_find_erase leafRule nodeRule p tree kid first more hfind hfirst hmore⟩

-- The tree of a document's chains has, whatever their order, one key for every field
-- around a hole, and a recursion over it goes through the fields.
theorem collect_chains {name : ι → BlockId} {fill : ι → Bytes} {Q : Nat → Document ι → Prop}
    {P : Nat → Document ι → List γ → Prop} (hP : Follows leafRule nodeRule name fill Q P)
    (base : Nat) (doc : Document ι) (hQ : Q base doc)
    (chains : List (BlockId × List Nat)) (hperm : chains.Perm (chainsOf name fill base doc)) :
    ∃ tree, build nil chains = .ok tree ∧
      ∃ all, tree.collect leafRule nodeRule = .ok all ∧ P base doc all := by
  induction doc generalizing base chains with
  | nil =>
      obtain rfl := List.Perm.eq_nil hperm
      exact ⟨nil, rfl, [], rfl, hP.nil base⟩
  | raw bytes rest ih =>
      obtain ⟨tree, htree, all, hall, hp⟩ := ih _ (hP.inRaw _ _ _ hQ) chains hperm
      exact ⟨tree, htree, all, hall, hP.raw base bytes rest all hp⟩
  | sub tag body rest ihBody ihRest =>
      have hne : ∀ entry ∈ chains, entry.2 ≠ [] :=
        fun entry he => chainsOf_ne_nil name fill base _ entry (hperm.mem_iff.mp he)
      by_cases hb : body.holes = []
      · rw [chainsOf_sub, (chainsOf_eq_nil name fill _ body).mpr hb] at hperm
        obtain ⟨tree, htree, all, hall, hp⟩ := ihRest _ (hP.inRest _ _ _ _ hQ) chains hperm
        exact ⟨tree, htree, all, hall, hP.plain base tag body rest all hb hp⟩
      · obtain ⟨hunder, hbeside⟩ := split_sub hperm
        obtain ⟨inner, hinner, xs, hxs, hpx⟩ := ihBody _ (hP.inBody _ _ _ _ hb hQ) _ hunder
        obtain ⟨others, hothers, more, hmore, hpm⟩ := ihRest _ (hP.inRest _ _ _ _ hQ) _ hbeside
        obtain ⟨first, hfirst, hgo⟩ := hP.sub base tag body rest xs hb hQ hpx
        have hkid : enterAll none (under (base + tag.length) chains) = .ok (some (.inr inner)) := by
          rw [enterAll_under hb hunder, hinner]
          rfl
        obtain ⟨tree, htree, all, hall, hap⟩ := collect_split leafRule nodeRule hne hkid
          (by rw [collectKid, hxs, hfirst]) hothers hmore
        exact ⟨tree, htree, all, hall, hP.perm _ _ _ _ hap.symm (hgo more hpm)⟩
  | hole tag i rest ih =>
      have hne : ∀ entry ∈ chains, entry.2 ≠ [] :=
        fun entry he => chainsOf_ne_nil name fill base _ entry (hperm.mem_iff.mp he)
      obtain ⟨hunder, hbeside⟩ := split_hole hperm
      obtain ⟨others, hothers, more, hmore, hpm⟩ := ih _ (hP.inHole _ _ _ _ hQ) _ hbeside
      obtain ⟨first, hfirst, hgo⟩ := hP.hole base tag i rest hQ
      have hkid : enterAll none (under (base + tag.length) chains) =
          .ok (some (.inl (name i))) := by
        rw [hunder]
        rfl
      obtain ⟨tree, htree, all, hall, hap⟩ :=
        collect_split leafRule nodeRule hne hkid hfirst hothers hmore
      exact ⟨tree, htree, all, hall, hP.perm _ _ _ _ hap.symm (hgo more hpm)⟩

theorem collect_kid (p : Nat) (tree : LengthsTree) (kid : BlockId ⊕ LengthsTree) (all : List γ)
    (hf : tree.find p = some kid) (hall : tree.collect leafRule nodeRule = .ok all) :
    (∃ first, collectKid leafRule nodeRule p kid = .ok first) ∧
      ∃ more, (tree.erase p).collect leafRule nodeRule = .ok more := by
  induction tree using rec_add generalizing all with
  | nil => simp at hf
  | add key old rest ih =>
      rw [collect_add] at hall
      cases hold : collectKid leafRule nodeRule key old with
      | error e => rw [hold] at hall; cases hall
      | ok first =>
          cases hrest : rest.collect leafRule nodeRule with
          | error e => rw [hold, hrest] at hall; cases hall
          | ok more =>
              by_cases hk : key = p
              · subst hk
                simp only [find_add, if_true, Option.some.injEq] at hf
                simp only [erase_add, if_true]
                exact ⟨⟨first, hf ▸ hold⟩, more, hrest⟩
              · simp only [find_add, if_neg hk] at hf
                obtain ⟨hkid, more', hmore⟩ := ih more hf hrest
                refine ⟨hkid, first :: more', ?_⟩
                rw [erase_add, if_neg hk, collect_add, hold, hmore]
                rfl

-- A recursion that comes to its end has come to every hole of the document.
theorem collect_leaves {name : ι → BlockId} {fill : ι → Bytes}
    (hstrict : ∀ key e first, nodeRule key (.error e) ≠ .ok first) (base : Nat)
    (doc : Document ι) (chains : List (BlockId × List Nat))
    (hperm : chains.Perm (chainsOf name fill base doc)) (tree : LengthsTree)
    (htree : build nil chains = .ok tree) (all : List γ)
    (hall : tree.collect leafRule nodeRule = .ok all) :
    ∀ leaf ∈ doc.leaves fill base, ∃ first, leafRule leaf.2 (name leaf.1) = .ok first := by
  induction doc generalizing base chains tree all with
  | nil => simp [Document.leaves]
  | raw bytes rest ih => exact ih _ chains hperm tree htree all hall
  | sub tag body rest ihBody ihRest =>
      have hne : ∀ entry ∈ chains, entry.2 ≠ [] :=
        fun entry he => chainsOf_ne_nil name fill base _ entry (hperm.mem_iff.mp he)
      intro leaf hl
      obtain ⟨hunder, hbeside⟩ := split_sub hperm
      have herase := build_erase (base + tag.length) chains nil tree hne htree
      by_cases hb : body.holes = []
      · have hnil : body.leaves fill
            (base + tag.length + (Varint.encode (body.size fill)).length) = [] := by
          have hs := Document.leaves_sublist_marks fill fill
            (base + tag.length + (Varint.encode (body.size fill)).length) body
          rw [(Document.marks_eq_nil_iff fill fill _ body).mpr hb, List.sublist_nil] at hs
          exact List.map_eq_nil_iff.mp hs
        rw [chainsOf_sub, (chainsOf_eq_nil name fill _ body).mpr hb] at hperm
        simp only [Document.leaves, hnil, List.nil_append] at hl
        exact ihRest _ chains hperm tree htree all hall leaf hl
      · have hfind := build_find (base + tag.length) chains nil tree hne htree
        rw [show nil.find (base + tag.length) = none from rfl, enterAll_under hb hunder] at hfind
        cases hinner : build nil (under (base + tag.length) chains) with
        | error e => rw [hinner] at hfind; cases hfind
        | ok inner =>
            rw [hinner] at hfind
            obtain ⟨⟨first, hkid⟩, more, hmore⟩ := collect_kid leafRule nodeRule _ tree _ all
              (Except.ok.inj hfind).symm hall
            simp only [Document.leaves, List.mem_append] at hl
            rcases hl with hl | hl
            · simp only [collectKid] at hkid
              cases hxs : inner.collect leafRule nodeRule with
              | error e => rw [hxs] at hkid; exact absurd hkid (hstrict _ _ _)
              | ok xs => exact ihBody _ _ hunder inner hinner xs hxs leaf hl
            · exact ihRest _ _ hbeside _ herase more hmore leaf hl
  | hole tag i rest ih =>
      have hne : ∀ entry ∈ chains, entry.2 ≠ [] :=
        fun entry he => chainsOf_ne_nil name fill base _ entry (hperm.mem_iff.mp he)
      obtain ⟨hunder, hbeside⟩ := split_hole hperm
      have hfind := build_find (base + tag.length) chains nil tree hne htree
      have herase := build_erase (base + tag.length) chains nil tree hne htree
      rw [hunder] at hfind
      obtain ⟨⟨first, hkid⟩, more, hmore⟩ := collect_kid leafRule nodeRule _ tree
        (.inl (name i)) all (Except.ok.inj hfind).symm hall
      intro leaf hl
      rcases List.mem_cons.mp hl with rfl | hl
      · exact ⟨first, hkid⟩
      · exact ih _ _ hbeside _ herase more hmore leaf hl

end Collect

end LengthsTree

end BeeRpc
