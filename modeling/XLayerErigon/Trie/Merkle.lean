import XLayerErigon.Trie.Zipper

/-
  Hashed tries in a content-addressed store.

  A `Scheme` says how the values, leaves and branches of a trie are turned into nodes and how a
  node is hashed.  The root of a trie is then computed bottom-up, and a store keeps every node
  under its own hash.

  A hash of fixed width cannot be injective on all nodes, so `CollisionFree` is stated for a set
  of nodes: the ones a run really meets.

  Main results:
    * `Scheme.root_plug`
    * `Scheme.mem_nodes_plug_iff`
    * `Scheme.stored_putAll`
-/

-- Schemes and Roots

namespace Trie

/- How the parts of a trie become nodes, and their hash. -/
structure Scheme (K V N H : Type) where
  hash : N → H
  zero : H
  valueNode : V → N
  leafNode : Nat → K → V → N
  branchNode : H → H → N

namespace Scheme

variable {K V N H : Type}

/- The root hash of a trie whose top is at depth `d`. -/
def root (S : Scheme K V N H) : Nat → Tree K V → H
  | _, .empty => S.zero
  | d, .leaf key value => S.hash (S.leafNode d key value)
  | d, .branch left right =>
      S.hash (S.branchNode (S.root (d + 1) left) (S.root (d + 1) right))

/-
  The nodes of a trie whose top is at depth `d`: branches, leaves and the value node of each leaf.
-/
def nodes (S : Scheme K V N H) : Nat → Tree K V → Set N
  | _, .empty => ∅
  | d, .leaf key value =>
      {S.leafNode d key value, S.valueNode value}
  | d, .branch left right =>
      {S.branchNode (S.root (d + 1) left) (S.root (d + 1) right)} ∪
        (S.nodes (d + 1) left ∪ S.nodes (d + 1) right)

theorem nodes_side {S : Scheme K V N H} {d : Nat} {left right : Tree K V} {b : Bool} :
    S.nodes (d + 1) (if b then right else left) ⊆ S.nodes d (.branch left right) := by
  intro n hn
  cases b with
  | true => exact Or.inr (Or.inr hn)
  | false => exact Or.inr (Or.inl hn)

theorem valueNode_mem_nodes {S : Scheme K V N H} {key : K} {value : V} {t : Tree K V} (d : Nat)
    (hMem : Tree.Mem key value t) : S.valueNode value ∈ S.nodes d t := by
  induction t generalizing d with
  | empty => exact hMem.elim
  | leaf key' value' =>
    rw [hMem.2]
    exact Or.inr rfl
  | branch left right ihLeft ihRight =>
    rcases hMem with hMem | hMem
    · exact Or.inr (Or.inl (ihLeft _ hMem))
    · exact Or.inr (Or.inr (ihRight _ hMem))

/- The hash separates the nodes of `A` and gives none of them the hash of the empty trie. -/
structure CollisionFree (S : Scheme K V N H) (A : Set N) : Prop where
  injOn : Set.InjOn S.hash A
  ne_zero : ∀ n ∈ A, S.hash n ≠ S.zero

variable {S : Scheme K V N H}

variable {d : Nat} {store : H → Option N}

theorem CollisionFree.mono {A B : Set N} (hFree : S.CollisionFree B) (hSub : A ⊆ B) :
    S.CollisionFree A :=
  ⟨hFree.injOn.mono hSub, fun n hn => hFree.ne_zero n (hSub hn)⟩

/- The root of a trie without collisions is zero only when it is empty. -/
theorem CollisionFree.root_eq_zero_iff {t : Tree K V} (hFree : S.CollisionFree (S.nodes d t)) :
    S.root d t = S.zero ↔ t = .empty := by
  cases t with
  | empty => simp [root]
  | leaf key value =>
    have hNe := hFree.ne_zero (S.leafNode d key value) (Set.mem_insert _ _)
    simpa [root] using hNe
  | branch left right =>
    have hNe := hFree.ne_zero _ (Set.mem_union_left _ (Set.mem_singleton _))
    simpa [root] using hNe

-- Content-Addressed Stores

/- Every node of the trie is stored under its hash. -/
def Stored (S : Scheme K V N H) (store : H → Option N) (d : Nat) (t : Tree K V) : Prop :=
  ∀ n ∈ S.nodes d t, store (S.hash n) = some n

theorem Stored.left {left right : Tree K V} (hStored : S.Stored store d (.branch left right)) :
    S.Stored store (d + 1) left :=
  fun n hn => hStored n (Or.inr (Or.inl hn))

theorem Stored.right {left right : Tree K V} (hStored : S.Stored store d (.branch left right)) :
    S.Stored store (d + 1) right :=
  fun n hn => hStored n (Or.inr (Or.inr hn))

theorem Stored.branchNode {left right : Tree K V}
    (hStored : S.Stored store d (.branch left right)) :
    store (S.root d (.branch left right)) =
      some (S.branchNode (S.root (d + 1) left) (S.root (d + 1) right)) :=
  hStored _ (Or.inl rfl)

theorem Stored.leafNode {key : K} {value : V} (hStored : S.Stored store d (.leaf key value)) :
    store (S.root d (.leaf key value)) = some (S.leafNode d key value) :=
  hStored _ (Or.inl rfl)

section Put

variable [DecidableEq H]

def put (S : Scheme K V N H) (store : H → Option N) (n : N) : H → Option N :=
  Function.update store (S.hash n) (some n)

/- Store a list of nodes, the first one first. -/
def putAll (S : Scheme K V N H) (store : H → Option N) (ns : List N) : H → Option N :=
  ns.foldl S.put store

variable {store : H → Option N}

@[simp] theorem putAll_nil : S.putAll store [] = store := rfl

@[simp] theorem putAll_cons (n : N) (ns : List N) :
    S.putAll store (n :: ns) = S.putAll (S.put store n) ns := rfl

theorem putAll_append (ns ns' : List N) :
    S.putAll store (ns ++ ns') = S.putAll (S.putAll store ns) ns' := by
  simp [putAll, List.foldl_append]

section

variable {A : Set N} (hFree : S.CollisionFree A)

include hFree

/- Storing a node keeps every other node in place. -/
theorem put_holds {n n' : N} (hn : n ∈ A) (hn' : n' ∈ A)
    (hHolds : store (S.hash n) = some n ∨ n = n') : S.put store n' (S.hash n) = some n := by
  unfold put
  by_cases hEq : S.hash n = S.hash n'
  · rw [hFree.injOn hn hn' hEq, Function.update_self]
  · rw [Function.update_of_ne hEq]
    rcases hHolds with hHolds | rfl
    · exact hHolds
    · exact absurd rfl hEq

theorem putAll_holds {n : N} {ns : List N} (hn : n ∈ A)
    (hns : ∀ n' ∈ ns, n' ∈ A) (hHolds : store (S.hash n) = some n ∨ n ∈ ns) :
    S.putAll store ns (S.hash n) = some n := by
  induction ns generalizing store with
  | nil => simpa using hHolds
  | cons n' ns ih =>
    rw [putAll_cons]
    apply ih (fun x hx => hns x (List.mem_cons_of_mem _ hx))
    rw [List.mem_cons] at hHolds
    have hn' := hns n' List.mem_cons_self
    rcases hHolds with hHolds | hEq | hMem
    · exact Or.inl (put_holds hFree hn hn' (Or.inl hHolds))
    · exact Or.inl (put_holds hFree hn hn' (Or.inr hEq))
    · exact Or.inr hMem

/- Storing other nodes leaves a hash as it was. -/
theorem putAll_of_not_mem {n : N} {ns : List N} (hn : n ∈ A)
    (hns : ∀ n' ∈ ns, n' ∈ A) (hOther : n ∉ ns) :
    S.putAll store ns (S.hash n) = store (S.hash n) := by
  induction ns generalizing store with
  | nil => rfl
  | cons n' ns ih =>
    rw [List.mem_cons, not_or] at hOther
    rw [putAll_cons, ih (fun x hx => hns x (List.mem_cons_of_mem _ hx)) hOther.2,
      put, Function.update_of_ne]
    intro hEq
    exact hOther.1 (hFree.injOn hn (hns n' List.mem_cons_self) hEq)

/- A trie is stored once its nodes are among the old nodes and the ones just written. -/
theorem stored_putAll {ns : List N} {d : Nat} {t : Tree K V}
    (hTree : S.nodes d t ⊆ A) (hns : ∀ n' ∈ ns, n' ∈ A)
    (hHolds : ∀ n ∈ S.nodes d t, store (S.hash n) = some n ∨ n ∈ ns) :
    S.Stored (S.putAll store ns) d t :=
  fun n hn => putAll_holds hFree (hTree hn) hns (hHolds n hn)

end

end Put

-- Hashing Along a Path

/- The node of a frame at depth `d` over a child hash. -/
def frameNode (S : Scheme K V N H) (d : Nat) (f : Frame K V) (h : H) : N :=
  if f.side then
    S.branchNode (S.root (d + 1) f.sibling) h
  else
    S.branchNode h (S.root (d + 1) f.sibling)

/- The root above the frames, over a child hash. -/
def rootUp (S : Scheme K V N H) :
    List (Frame K V) → H → H
  | [], h => h
  | f :: up, h =>
      S.rootUp up (S.hash (S.frameNode up.length f h))

/- The nodes of the frames, deepest first. -/
def pathNodes (S : Scheme K V N H) :
    List (Frame K V) → H → List N
  | [], _ => []
  | f :: up, h =>
      S.frameNode up.length f h :: S.pathNodes up (S.hash (S.frameNode up.length f h))

/- The nodes of the subtrees beside the path. -/
def siblingNodes (S : Scheme K V N H) :
    List (Frame K V) → Set N
  | [] => ∅
  | f :: up =>
      S.nodes (up.length + 1) f.sibling ∪ S.siblingNodes up

variable (d : Nat)

/- An empty sibling is the zero hash at any depth. -/
theorem frameNode_empty (b : Bool) (h : H) :
    S.frameNode d ⟨b, .empty⟩ h = if b then S.branchNode S.zero h else S.branchNode h S.zero := rfl

theorem root_frame_plug (f : Frame K V) (t : Tree K V) :
    S.root d (f.plug t) = S.hash (S.frameNode d f (S.root (d + 1) t)) := by
  obtain ⟨side, sibling⟩ := f
  cases side <;> rfl

theorem mem_nodes_frame_plug_iff (f : Frame K V) (t : Tree K V) (n : N) : n ∈ S.nodes d (f.plug t) ↔
      n = S.frameNode d f (S.root (d + 1) t) ∨
        n ∈ S.nodes (d + 1) f.sibling ∨ n ∈ S.nodes (d + 1) t := by
  obtain ⟨side, sibling⟩ := f
  cases side with
  | true => simp [nodes, frameNode, Set.mem_union]
  | false => simp [nodes, frameNode, Set.mem_union, or_comm (a := n ∈ S.nodes (d + 1) t)]

/- A spine is hashed in the same way at any depth. -/
theorem root_plug_spine (bits : List Bool) (t : Tree K V) : S.root d (plug (spine bits) t) =
      S.rootUp (spine bits : List (Frame K V)) (S.root (d + bits.length) t) := by
  induction bits generalizing t with
  | nil => rfl
  | cons b bits ih =>
    have hUp := ih (Frame.plug ⟨b, .empty⟩ t)
    rw [root_frame_plug] at hUp
    exact hUp

theorem mem_nodes_plug_spine_iff (bits : List Bool) (t : Tree K V) (n : N) :
    n ∈ S.nodes d (plug (spine bits) t) ↔
      n ∈ S.pathNodes (spine bits : List (Frame K V)) (S.root (d + bits.length) t) ∨
        n ∈ S.nodes (d + bits.length) t := by
  induction bits generalizing t with
  | nil => simp [spine, plug, pathNodes]
  | cons b bits ih =>
    have hUp := ih (Frame.plug ⟨b, .empty⟩ t)
    rw [root_frame_plug, mem_nodes_frame_plug_iff] at hUp
    simp only [nodes, Set.mem_empty_iff_false, false_or] at hUp
    have hPath :
        S.pathNodes (spine (b :: bits) : List (Frame K V)) (S.root (d + (b :: bits).length) t) =
          S.frameNode (d + bits.length) ⟨b, .empty⟩ (S.root (d + bits.length + 1) t) ::
            S.pathNodes (spine bits : List (Frame K V))
              (S.hash
                (S.frameNode (d + bits.length) ⟨b, .empty⟩ (S.root (d + bits.length + 1) t))) :=
      rfl
    rw [hPath, List.mem_cons]
    change n ∈ S.nodes d (plug (spine bits) _) ↔ _
    rw [hUp, List.length_cons, Nat.add_assoc]
    tauto

/- The root of a plugged tree is hashed along the path. -/
theorem root_plug (up : List (Frame K V)) (t : Tree K V) :
    S.root 0 (plug up t) = S.rootUp up (S.root up.length t) := by
  induction up generalizing t with
  | nil => rfl
  | cons f up ih =>
    rw [plug, ih, root_frame_plug]
    rfl

theorem mem_nodes_plug_iff (up : List (Frame K V)) (t : Tree K V) (n : N) :
    n ∈ S.nodes 0 (plug up t) ↔
      n ∈ S.pathNodes up (S.root up.length t) ∨
        n ∈ S.siblingNodes up ∨ n ∈ S.nodes up.length t := by
  induction up generalizing t with
  | nil => simp [plug, pathNodes, siblingNodes]
  | cons f up ih =>
    rw [plug, ih, root_frame_plug, mem_nodes_frame_plug_iff, pathNodes, siblingNodes]
    simp only [List.mem_cons, List.length_cons, Set.mem_union]
    tauto

end Scheme

end Trie
