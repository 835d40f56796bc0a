import BeeRpc.Driver

namespace BeeRpc

open Wire Naming

namespace LengthsTree

-- The dictionary under a position, empty where there is none.
def inside (p : Nat) (tree : LengthsTree) : LengthsTree :=
  match tree.find p with
  | some (.inr children) => children
  | _ => nil

-- What a chain of positions makes of a tree in which no block stands in its way.
def plant (id : BlockId) : List Nat → LengthsTree → LengthsTree
  | [], tree => tree
  | [p], tree => tree.put p (.inl id)
  | p :: q :: more, tree => tree.put p (.inr (plant id (q :: more) (tree.inside p)))

def plantAll (tree : LengthsTree) (chains : List (BlockId × List Nat)) : LengthsTree :=
  chains.foldl (fun tree entry => plant entry.1 entry.2 tree) tree

-- The tree of the chains, a later chain over the earlier ones.
def nest (chains : List (BlockId × List Nat)) : LengthsTree := plantAll nil chains

-- A block stands under a position that the chain goes on from.
def Blocked : List Nat → LengthsTree → Prop
  | p :: q :: more, tree =>
      (∃ id, tree.find p = some (.inl id)) ∨ Blocked (q :: more) (tree.inside p)
  | _, _ => False

-- The second list of positions begins with the first and goes on.
def Around (outer inner : List Nat) : Prop := outer <+: inner ∧ outer ≠ inner

theorem not_blocked_nil (chain : List Nat) : ¬ Blocked chain nil := by
  induction chain with
  | nil => exact not_false
  | cons p tail ih =>
      cases tail with
      | nil => exact not_false
      | cons q more =>
          rintro (⟨id, h⟩ | h)
          · cases h
          · exact ih h

theorem insert_eq_ok {id : BlockId} {chain : List Nat} {tree result : LengthsTree} :
    insert id chain tree = .ok result ↔
      chain ≠ [] ∧ ¬ Blocked chain tree ∧ plant id chain tree = result := by
  induction chain generalizing tree result with
  | nil => simp [insert]
  | cons p tail ih =>
      cases tail with
      | nil => simp [insert, plant, Blocked]
      | cons q more =>
          rw [insert, plant, Blocked, inside]
          cases tree.find p with
          | none =>
              simp only [bind_eq_ok, ih, pure_ok, Except.ok.injEq]
              simp
          | some kid =>
              cases kid with
              | inl other => simp
              | inr children =>
                  simp only [bind_eq_ok, ih, pure_ok, Except.ok.injEq]
                  simp

theorem around_cons (p q : Nat) (outer inner : List Nat) :
    Around (p :: outer) (q :: inner) ↔ p = q ∧ Around outer inner := by
  simp only [Around, List.cons_prefix_cons, ne_eq, List.cons.injEq, not_and]
  tauto

theorem not_around_nil (outer : List Nat) : ¬ Around outer [] :=
  fun h => h.2 (List.prefix_nil.mp h.1)

theorem inside_put (p r : Nat) (kid : BlockId ⊕ LengthsTree) (tree : LengthsTree) :
    (tree.put p kid).inside r = if p = r then kid.elim (fun _ => nil) id else tree.inside r := by
  rw [inside, find_put]
  by_cases hp : p = r
  · rw [if_pos hp, if_pos hp]
    cases kid <;> rfl
  · rw [if_neg hp, if_neg hp]
    rfl

-- A chain that has been planted is in the way of those that go on from its last position, and
-- takes nothing else out of the way of any.
theorem blocked_plant {id : BlockId} {outer : List Nat} (inner : List Nat) {tree : LengthsTree}
    (hne : outer ≠ []) (hfree : ¬ Blocked outer tree) :
    Blocked inner (plant id outer tree) ↔ Blocked inner tree ∨ Around outer inner := by
  induction outer generalizing inner tree with
  | nil => exact absurd rfl hne
  | cons p tail ih =>
      cases inner with
      | nil => exact iff_of_false not_false (not_or.mpr ⟨not_false, not_around_nil _⟩)
      | cons r rest =>
          rw [around_cons]
          cases rest with
          | nil =>
              exact iff_of_false not_false (not_or.mpr ⟨not_false, fun h => not_around_nil _ h.2⟩)
          | cons s more =>
              cases tail with
              | nil =>
                  rw [plant, Blocked, Blocked, find_put, inside_put]
                  by_cases hp : p = r
                  · simp [hp, Around]
                  · simp [hp]
              | cons q deeper =>
                  rw [Blocked, not_or] at hfree
                  rw [plant, Blocked, Blocked, find_put, inside_put]
                  by_cases hp : p = r
                  · subst hp
                    have hmore := ih (s :: more) (List.cons_ne_nil _ _) hfree.2
                    simp [hfree.1, hmore]
                  · simp [hp]

theorem build_eq_ok {chains : List (BlockId × List Nat)} {tree result : LengthsTree} :
    build tree chains = .ok result ↔
      (∀ entry ∈ chains, entry.2 ≠ [] ∧ ¬ Blocked entry.2 tree) ∧
        (chains.Pairwise fun outer inner => ¬ Around outer.2 inner.2) ∧
          plantAll tree chains = result := by
  induction chains generalizing tree with
  | nil => simp [build, plantAll]
  | cons entry chains ih =>
      have hbuild : build tree (entry :: chains) =
          insert entry.1 entry.2 tree >>= fun tree => build tree chains := List.foldlM_cons ..
      have hplant : plantAll tree (entry :: chains) = plantAll (plant entry.1 entry.2 tree) chains := rfl
      simp only [hbuild, hplant, bind_eq_ok, insert_eq_ok, ih, List.forall_mem_cons,
        List.pairwise_cons]
      constructor
      · rintro ⟨_, ⟨hne, hfree, rfl⟩, hrest, hordered, hresult⟩
        refine ⟨⟨⟨hne, hfree⟩, fun other ho => ⟨(hrest other ho).1, fun hblocked => ?_⟩⟩,
          ⟨fun other ho haround => ?_, hordered⟩, hresult⟩
        · exact (hrest other ho).2 ((blocked_plant other.2 hne hfree).mpr (Or.inl hblocked))
        · exact (hrest other ho).2 ((blocked_plant other.2 hne hfree).mpr (Or.inr haround))
      · rintro ⟨⟨⟨hne, hfree⟩, hrest⟩, ⟨hnot, hordered⟩, hresult⟩
        refine ⟨_, ⟨hne, hfree, rfl⟩, fun other ho => ⟨(hrest other ho).1, fun hblocked => ?_⟩,
          hordered, hresult⟩
        exact ((blocked_plant other.2 hne hfree).mp hblocked).elim (hrest other ho).2 (hnot other ho)

-- create_lengths_tree takes the chains exactly where none goes on from an earlier one.
theorem build_nil_eq_ok {chains : List (BlockId × List Nat)} {result : LengthsTree}
    (hne : ∀ entry ∈ chains, entry.2 ≠ []) :
    build nil chains = .ok result ↔
      (chains.Pairwise fun outer inner => ¬ Around outer.2 inner.2) ∧ nest chains = result := by
  rw [build_eq_ok, nest, and_iff_right]
  exact fun entry he => ⟨hne entry he, not_blocked_nil _⟩

-- Every block under a position and every position with a dictionary has the property.
def All (atLeaf : Nat → BlockId → Prop) (atNode : Nat → Prop) : LengthsTree → Prop
  | nil => True
  | leaf key id rest => atLeaf key id ∧ rest.All atLeaf atNode
  | node key children rest => atNode key ∧ children.All atLeaf atNode ∧ rest.All atLeaf atNode

-- All positions of the tree, those of a dictionary behind the one it stands under.
def positions : LengthsTree → List Nat
  | nil => []
  | leaf key _ rest => key :: rest.positions
  | node key children rest => key :: children.positions ++ rest.positions

section

variable {atLeaf : Nat → BlockId → Prop} {atNode : Nat → Prop}

def AllKid (atLeaf : Nat → BlockId → Prop) (atNode : Nat → Prop) (p : Nat) :
    BlockId ⊕ LengthsTree → Prop
  | .inl id => atLeaf p id
  | .inr children => atNode p ∧ children.All atLeaf atNode

theorem all_add (p : Nat) (kid : BlockId ⊕ LengthsTree) (rest : LengthsTree) :
    (add p kid rest).All atLeaf atNode ↔ AllKid atLeaf atNode p kid ∧ rest.All atLeaf atNode := by
  cases kid with
  | inl id => rfl
  | inr children => exact and_assoc.symm

theorem all_put {p : Nat} {kid : BlockId ⊕ LengthsTree} {tree : LengthsTree}
    (hkid : AllKid atLeaf atNode p kid) (h : tree.All atLeaf atNode) :
    (tree.put p kid).All atLeaf atNode := by
  induction tree using rec_add with
  | nil => exact (all_add ..).mpr ⟨hkid, trivial⟩
  | add key old rest ih =>
      rw [all_add] at h
      rw [put_add]
      by_cases hk : key = p
      · rw [if_pos hk]
        exact (all_add ..).mpr ⟨hkid, h.2⟩
      · rw [if_neg hk]
        exact (all_add ..).mpr ⟨h.1, ih h.2⟩

theorem all_of_find {p : Nat} {kid : BlockId ⊕ LengthsTree} {tree : LengthsTree}
    (h : tree.All atLeaf atNode) (hf : tree.find p = some kid) : AllKid atLeaf atNode p kid := by
  induction tree using rec_add with
  | nil => cases hf
  | add key old rest ih =>
      rw [all_add] at h
      rw [find_add] at hf
      by_cases hk : key = p
      · rw [if_pos hk] at hf
        obtain rfl := Option.some.inj hf
        exact hk ▸ h.1
      · rw [if_neg hk] at hf
        exact ih h.2 hf

theorem all_inside {tree : LengthsTree} (h : tree.All atLeaf atNode) (p : Nat) :
    (tree.inside p).All atLeaf atNode := by
  rw [inside]
  split
  · rename_i children hf
    exact (all_of_find h hf).2
  · trivial

theorem all_plant {id : BlockId} {chain : List Nat} {tree : LengthsTree}
    (hlast : ∀ last, chain.getLast? = some last → atLeaf last id) (hchain : ∀ p ∈ chain, atNode p)
    (h : tree.All atLeaf atNode) : (plant id chain tree).All atLeaf atNode := by
  induction chain generalizing tree with
  | nil => exact h
  | cons p tail ih =>
      cases tail with
      | nil => exact all_put (hlast p rfl) h
      | cons q more =>
          rw [List.forall_mem_cons] at hchain
          exact all_put ⟨hchain.1, ih (fun last hl => hlast last hl) hchain.2 (all_inside h p)⟩ h

-- What holds of the chains holds of the tree that they make.
theorem all_nest {chains : List (BlockId × List Nat)}
    (h : ∀ entry ∈ chains, (∀ last, entry.2.getLast? = some last → atLeaf last entry.1) ∧
      ∀ p ∈ entry.2, atNode p) : (nest chains).All atLeaf atNode := by
  have hall : ∀ tree : LengthsTree, tree.All atLeaf atNode →
      (plantAll tree chains).All atLeaf atNode := by
    induction chains with
    | nil => exact fun tree htree => htree
    | cons entry chains ih =>
        rw [List.forall_mem_cons] at h
        exact fun tree htree => ih h.2 _ (all_plant h.1.1 h.1.2 htree)
  exact hall nil trivial

end

section

variable (stated : Nat → Nat) (gone : Nat → BlockId → Int)

-- What the fields of a dictionary lose together when each block gives way to its pointer. The
-- computation goes by positions, so one that stands again further behind counts nothing here.
def loses : LengthsTree → Int
  | nil => 0
  | leaf key id rest =>
      (if key ∈ rest.positions then 0 else lost (stated key) (stated key - gone key id).toNat) +
        rest.loses
  | node key children rest =>
      (if key ∈ rest.positions then 0
        else lost (stated key) (stated key - children.loses).toNat) + rest.loses

-- Every field around others states at least as many bytes as these lose.
def Enough : LengthsTree → Prop
  | nil => True
  | leaf _ _ rest => rest.Enough
  | node key children rest =>
      children.loses stated gone ≤ stated key ∧ children.Enough ∧ rest.Enough

end

end LengthsTree

section

variable (registry : Registry) (fileList : List Path) (pointerLengths : Dict Nat Nat)
  (stated : Nat → Nat) (gone : Nat → BlockId → Int)

-- What the two rules of compute_wbp_lengths read of a tree.
def LengthsTree.Reads : LengthsTree → Prop :=
  LengthsTree.All
    (fun key id => getVarintAtPosition registry key fileList = .ok (stated key) ∧
      gone key id ≤ stated key ∧ ∃ length, pointerLengths.lookup key = some length ∧
        getPrunedBlockLength registry id length = .ok (gone key id))
    (fun key => getVarintAtPosition registry key fileList = .ok (stated key))

-- The entries that a run over a tree leaves: their positions, and what they lose together.
structure Gathers (tree : LengthsTree) (lengths : List WbpLength) : Prop where
  keys : ∀ position, position ∈ lengths.map Prod.fst ↔ position ∈ tree.positions
  sum : Dict.sumOf Prod.snd (fun _ => true) (Dict.ofList lengths) = tree.loses stated gone

end

section

variable {registry : Registry} {fileList : List Path} {pointerLengths : Dict Nat Nat}
  {stated : Nat → Nat} {gone : Nat → BlockId → Int}

theorem wbpEntry_within {key positionLength : Nat} {prunedLength : Int}
    (h : prunedLength ≤ positionLength) :
    wbpEntry key positionLength prunedLength =
      .ok (key, ((positionLength - prunedLength).toNat : Int),
        lost positionLength (positionLength - prunedLength).toNat) := by
  have hpruned : prunedLength = positionLength - ((positionLength - prunedLength).toNat : Int) := by
    omega
  rw [← wbpEntry_eq, ← hpruned]

theorem Gathers.leaf {rest : LengthsTree} {more : List WbpLength}
    (h : Gathers stated gone rest more) (key : Nat) (id : BlockId) (length : Int) :
    Gathers stated gone (.leaf key id rest)
      ([(key, length, lost (stated key) (stated key - gone key id).toNat)] ++ more) where
  keys position := by
    rw [List.map_append, List.mem_append, h.keys]
    simp [LengthsTree.positions]
  sum := by
    rw [List.singleton_append, Dict.sumOf_cons, h.sum, LengthsTree.loses]
    simp only [h.keys]

theorem Gathers.node {children rest : LengthsTree} {inner more : List WbpLength}
    (hinner : Gathers stated gone children inner) (h : Gathers stated gone rest more) (key : Nat)
    (length : Int) :
    Gathers stated gone (.node key children rest)
      (((Dict.ofList inner).map fun entry => (entry.1, entry.2.1, 0)) ++
        [(key, length, lost (stated key) (stated key - children.loses stated gone).toNat)] ++
          more) where
  keys position := by
    have hkeys := Dict.mem_keys_update position [] inner
    simp only [List.map_nil, List.not_mem_nil, false_or] at hkeys
    rw [List.map_append, List.map_append, List.map_map, List.mem_append, List.mem_append, h.keys,
      LengthsTree.positions, List.mem_append, List.mem_cons, ← hinner.keys, ← hkeys]
    simp only [List.map_cons, List.map_nil, List.mem_singleton]
    exact or_congr_left or_comm
  sum := by
    have hzero : ∀ entry ∈ (Dict.ofList inner).map fun entry => (entry.1, entry.2.1, (0 : Int)),
        entry.2.2 = 0 := by
      intro entry he
      obtain ⟨_, -, rfl⟩ := List.mem_map.mp he
      rfl
    rw [List.append_assoc, Dict.sumOf_append _ _ _ hzero, List.singleton_append, Dict.sumOf_cons,
      h.sum, LengthsTree.loses]
    simp only [h.keys]

-- The run comes to its end exactly where every field around others states enough.
theorem collect_wbp (tree : LengthsTree)
    (hreads : tree.Reads registry fileList pointerLengths stated gone) :
    (tree.Enough stated gone → ∃ lengths, tree.collect (wbpLeaf registry fileList pointerLengths)
      (wbpNode registry fileList) = .ok lengths ∧ Gathers stated gone tree lengths.flatten) ∧
    ((∃ lengths, tree.collect (wbpLeaf registry fileList pointerLengths)
      (wbpNode registry fileList) = .ok lengths) → tree.Enough stated gone) := by
  induction tree with
  | nil => exact ⟨fun _ => ⟨[], rfl, fun _ => Iff.rfl, rfl⟩, fun _ => trivial⟩
  | leaf key id rest ih =>
      obtain ⟨⟨hread, hgone, length, hlength, hpruned⟩, hrest⟩ := hreads
      have hleaf : wbpLeaf registry fileList pointerLengths key id =
          .ok [(key, ((stated key - gone key id).toNat : Int),
            lost (stated key) (stated key - gone key id).toNat)] := by
        simp only [wbpLeaf, hread, hlength, hpruned, ok_bind, wbpEntry_within hgone, pure_ok]
      rw [LengthsTree.collect, hleaf, ok_bind]
      constructor
      · intro henough
        obtain ⟨more, hmore, hgathers⟩ := (ih hrest).1 henough
        have hlengths := hgathers.leaf key id (stated key - gone key id).toNat
        refine ⟨_ :: more, ?_, hlengths⟩
        rw [hmore]
        rfl
      · rintro ⟨lengths, hlengths⟩
        obtain ⟨more, hmore, -⟩ := bind_eq_ok.mp hlengths
        exact (ih hrest).2 ⟨more, hmore⟩
  | node key children rest ihChildren ihRest =>
      obtain ⟨hread, hchildren, hrest⟩ := hreads
      have hnode : ∀ inner, Gathers stated gone children inner.flatten →
          wbpNode registry fileList key (.ok inner) =
            (wbpEntry key (stated key) (children.loses stated gone)).map fun entry =>
              ((Dict.ofList inner.flatten).map fun entry => (entry.1, entry.2.1, 0)) ++ [entry] := by
        intro inner hgathered
        have hsum := hgathered.sum
        rw [Dict.sumOf_all] at hsum
        simp only [wbpNode, hread, ok_bind, hsum]
        cases wbpEntry key (stated key) (children.loses stated gone) <;> rfl
      rw [LengthsTree.collect]
      constructor
      · rintro ⟨henough, hinside, hbeside⟩
        obtain ⟨inner, hinner, hgathered⟩ := (ihChildren hchildren).1 hinside
        obtain ⟨more, hmore, hgathers⟩ := (ihRest hrest).1 hbeside
        have hlengths := hgathered.node hgathers key
          (stated key - children.loses stated gone).toNat
        refine ⟨_ :: more, ?_, hlengths⟩
        rw [hinner, hnode inner hgathered, wbpEntry_within henough, hmore]
        rfl
      · rintro ⟨lengths, hlengths⟩
        obtain ⟨first, hfirst, hlengths⟩ := bind_eq_ok.mp hlengths
        obtain ⟨more, hmore, -⟩ := bind_eq_ok.mp hlengths
        obtain ⟨_, hvalue, hfirst⟩ := bind_eq_ok.mp hfirst
        obtain rfl := Except.ok.inj (hread.symm.trans hvalue)
        obtain ⟨inner, hinner, hfirst⟩ := bind_eq_ok.mp hfirst
        have hinside := (ihChildren hchildren).2 ⟨inner, hinner⟩
        refine ⟨?_, hinside, (ihRest hrest).2 ⟨more, hmore⟩⟩
        obtain ⟨_, hagain, hgathered⟩ := (ihChildren hchildren).1 hinside
        obtain rfl := Except.ok.inj (hinner.symm.trans hagain)
        obtain ⟨entry, hentry, -⟩ := bind_eq_ok.mp hfirst
        have hsum := hgathered.sum
        rw [Dict.sumOf_all] at hsum
        rw [hsum, wbpEntry] at hentry
        split at hentry
        · cases hentry
        · omega

end

end BeeRpc
