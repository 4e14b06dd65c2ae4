import Mathlib.Data.List.Sort
import Mathlib.Data.List.Nodup
import Mathlib.Data.List.Infix

/-! `limitedmap`: a map with a second container that orders its elements by value. An iterator of the map
is the number of its node, so an iterator of an erased node differs from that of any later one. -/
namespace Candypool.Net

structure Node (K V : Type) where
  id : ℕ
  key : K
  value : V
  deriving DecidableEq, Repr

/-- `rmap` is a multimap: sorted by value, equal values in the order of their insertion. -/
structure LimitedMap (K V : Type) where
  map : List (Node K V)
  rmap : List (V × ℕ)
  nMaxSize : ℕ
  nextNode : ℕ
  deriving DecidableEq, Repr

inductive MapFault
  | emptyRmap
  | danglingIterator
  | assertion
  deriving DecidableEq, Repr

section Operations
variable {K V : Type} [DecidableEq K] [LinearOrder V]

namespace LimitedMap

def init (nMaxSizeIn : ℕ) : LimitedMap K V := ⟨[], [], nMaxSizeIn, 0⟩

def size (m : LimitedMap K V) : ℕ := m.map.length

def find (m : LimitedMap K V) (k : K) : Option (Node K V) := m.map.find? fun node => node.key == k

/-- `map.erase(rmap.begin()->second); rmap.erase(rmap.begin())`. -/
def dropLowest (m : LimitedMap K V) : Except MapFault (LimitedMap K V) :=
  match m.rmap with
  | [] => .error .emptyRmap
  | (_,it) :: rmap =>
    if m.map.any fun node => node.id == it then
      .ok { m with map := m.map.filter fun node => node.id != it, rmap := rmap }
    else .error .danglingIterator

/-- `rmap.insert(make_pair(v, it))`, behind the entries of the same value. -/
def rmapInsert (m : LimitedMap K V) (v : V) (it : ℕ) : LimitedMap K V :=
  { m with rmap := m.rmap.orderedInsert (fun a b => a.1 < b.1) (v,it) }

def insert (m : LimitedMap K V) (k : K) (v : V) : Except MapFault (LimitedMap K V) := do
  match m.find k with
  | some _ => .ok m
  | none =>
    let it := m.nextNode
    let m := { m with map := m.map ++ [(⟨it,k,v⟩ : Node K V)], nextNode := it+1 }
    let m ← if m.nMaxSize ≠ 0 ∧ m.size = m.nMaxSize then m.dropLowest else .ok m
    .ok (m.rmapInsert v it)

/-- The entry with the node's value and iterator is looked for among those of the value. -/
def erase (m : LimitedMap K V) (k : K) : Except MapFault (LimitedMap K V) :=
  match m.find k with
  | none => .ok m
  | some itTarget =>
    if (itTarget.value, itTarget.id) ∈ m.rmap then
      .ok { m with rmap := m.rmap.erase (itTarget.value, itTarget.id)
                   map := m.map.filter fun node => node.id != itTarget.id }
    else .error .assertion

def update (m : LimitedMap K V) (k : K) (v : V) : Except MapFault (LimitedMap K V) :=
  match m.find k with
  | none => .ok m
  | some itTarget =>
    if (itTarget.value, itTarget.id) ∈ m.rmap then
      let rmap := m.rmap.erase (itTarget.value, itTarget.id)
      let map := m.map.map fun node =>
        if node.id = itTarget.id then { node with value := v } else node
      .ok (rmapInsert { m with rmap := rmap, map := map } v itTarget.id)
    else .error .assertion

/-- The loop of `max_size`; every turn erases one element, so the size bounds the turns. -/
def shrinkLoop (s : ℕ) : ℕ → LimitedMap K V → Except MapFault (LimitedMap K V)
  | 0, m => .ok m
  | fuel+1, m => if m.size > s then m.dropLowest.bind (shrinkLoop s fuel) else .ok m

def maxSize (m : LimitedMap K V) (s : ℕ) : Except MapFault (LimitedMap K V) := do
  let m ← if s ≠ 0 then m.shrinkLoop s m.size else .ok m
  .ok { m with nMaxSize := s }

end LimitedMap

inductive MapOp (K V : Type)
  | insert (k : K) (v : V)
  | erase (k : K)
  | update (k : K) (v : V)
  | maxSize (s : ℕ)
  deriving DecidableEq, Repr

def MapOp.exec (m : LimitedMap K V) : MapOp K V → Except MapFault (LimitedMap K V)
  | .insert k v => m.insert k v
  | .erase k => m.erase k
  | .update k v => m.update k v
  | .maxSize s => m.maxSize s

/-- The calls one after the other, until one of them fails. -/
def runOps (m : LimitedMap K V) (ops : List (MapOp K V)) : Except MapFault (LimitedMap K V) :=
  ops.foldlM MapOp.exec m

end Operations

section Mirror
variable {K V : Type}

/-- The entries that `rmap` should have. -/
def entriesOf (map : List (Node K V)) : List (V × ℕ) := map.map fun node => (node.value, node.id)

/-- `rmap` holds exactly the entries of `map`, and nodes and keys are distinct. -/
structure LimitedMap.Mirror (m : LimitedMap K V) : Prop where
  perm : m.rmap.Perm (entriesOf m.map)
  ids : (m.map.map Node.id).Nodup
  keys : (m.map.map Node.key).Nodup
  fresh : ∀ node ∈ m.map, node.id < m.nextNode

/-- A node can be taken out of the others. -/
theorem perm_node_cons {map : List (Node K V)} (hids : (map.map Node.id).Nodup) {node : Node K V}
    (hmem : node ∈ map) : map.Perm (node :: map.filter fun other => other.id != node.id) := by
  induction map with
  | nil => cases hmem
  | cons first map ih =>
    rw [List.map_cons, List.nodup_cons] at hids
    obtain ⟨hfirst,hids⟩ := hids
    rcases List.mem_cons.mp hmem with rfl | hmem
    · have hall : map.filter (fun other => other.id != node.id) = map := by
        apply List.filter_eq_self.mpr
        intro other hother
        apply bne_iff_ne.mpr
        intro heq
        exact hfirst (heq ▸ List.mem_map_of_mem hother)
      rw [List.filter_cons_of_neg (by simp), hall]
    · have hne : first.id ≠ node.id := fun heq => hfirst (heq ▸ List.mem_map_of_mem hmem)
      rw [List.filter_cons_of_pos (by simpa using hne)]
      exact ((ih hids hmem).cons first).trans (List.Perm.swap _ _ _)

theorem mem_of_entry {map : List (Node K V)} {v : V} {it : ℕ} (h : (v,it) ∈ entriesOf map) :
    ∃ node ∈ map, node.value = v ∧ node.id = it := by
  obtain ⟨node,hmem,heq⟩ := List.mem_map.mp h
  exact ⟨node, hmem, (Prod.mk.inj heq).1, (Prod.mk.inj heq).2⟩

/-- Without a node, and without its entry, the containers still agree. -/
theorem perm_filter_node {map : List (Node K V)} (hids : (map.map Node.id).Nodup) {v : V} {it : ℕ}
    {rmap : List (V × ℕ)} (hperm : ((v,it) :: rmap).Perm (entriesOf map)) :
    rmap.Perm (entriesOf (map.filter fun node => node.id != it)) := by
  obtain ⟨node,hmem,rfl,rfl⟩ := mem_of_entry (hperm.subset List.mem_cons_self)
  have hsplit := (perm_node_cons hids hmem).map fun node => (node.value, node.id)
  exact (hperm.trans hsplit).cons_inv

/-- Writing a value into one node. -/
theorem entriesOf_write {map : List (Node K V)} (hids : (map.map Node.id).Nodup) {node : Node K V}
    (hmem : node ∈ map) (v : V) :
    (entriesOf (map.map fun other =>
      if other.id = node.id then { other with value := v } else other)).Perm
        ((v,node.id) :: entriesOf (map.filter fun other => other.id != node.id)) := by
  have hsplit := ((perm_node_cons hids hmem).map fun other : Node K V =>
    if other.id = node.id then { other with value := v } else other).map
      fun other : Node K V => (other.value, other.id)
  have hrest : (map.filter fun other => other.id != node.id).map (fun other =>
      if other.id = node.id then { other with value := v } else other) =
        map.filter fun other => other.id != node.id := by
    apply (List.map_congr_left _).trans (List.map_id _)
    intro other hother
    have hne := (List.mem_filter.mp hother).2
    exact if_neg (bne_iff_ne.mp hne)
  rw [List.map_cons, List.map_cons, if_pos rfl, hrest] at hsplit
  exact hsplit

variable {m : LimitedMap K V}

namespace LimitedMap

theorem Mirror.size_rmap (h : m.Mirror) : m.rmap.length = m.size := by
  rw [h.perm.length_eq, entriesOf, List.length_map, size]

theorem find_eq_some [DecidableEq K] {k : K} {node : Node K V} (h : m.find k = some node) :
    node ∈ m.map ∧ node.key = k :=
  ⟨List.mem_of_find?_eq_some h, by simpa using List.find?_some h⟩

theorem find_eq_none [DecidableEq K] {k : K} (h : m.find k = none) : k ∉ m.map.map Node.key := by
  intro hmem
  obtain ⟨node,hnode,rfl⟩ := List.mem_map.mp hmem
  have := List.find?_eq_none.mp h node hnode
  simp at this

/-- Dropping the lowest element of a map that is not empty. -/
theorem Mirror.dropLowest (h : m.Mirror) (hpos : 0 < m.size) :
    ∃ m', m.dropLowest = .ok m' ∧ m'.Mirror ∧ m'.size+1 = m.size ∧ m'.nMaxSize = m.nMaxSize ∧
      m'.map.map Node.key ⊆ m.map.map Node.key := by
  cases hrmap : m.rmap with
  | nil =>
    have hsize := h.size_rmap
    rw [hrmap, List.length_nil] at hsize
    omega
  | cons entry rmap =>
    obtain ⟨v,it⟩ := entry
    have hperm := h.perm
    rw [hrmap] at hperm
    obtain ⟨node,hmem,hvalue,hid⟩ := mem_of_entry (hperm.subset List.mem_cons_self)
    have hrest := perm_filter_node h.ids hperm
    have hany : (m.map.any fun node => node.id == it) = true :=
      List.any_eq_true.mpr ⟨node, hmem, beq_iff_eq.mpr hid⟩
    refine ⟨{ m with map := m.map.filter fun node => node.id != it, rmap := rmap }, ?_, ?_, ?_, rfl,
      (List.filter_sublist.map _).subset⟩
    · rw [LimitedMap.dropLowest, hrmap]
      exact if_pos hany
    · exact ⟨hrest, h.ids.sublist (List.filter_sublist.map _), h.keys.sublist (List.filter_sublist.map _),
        fun node hnode => h.fresh node (List.mem_of_mem_filter hnode)⟩
    · have hlen := (perm_node_cons h.ids hmem).length_eq
      rw [List.length_cons, hid] at hlen
      exact hlen.symm

theorem Mirror.shrinkLoop (h : m.Mirror) (s fuel : ℕ) (hfuel : m.size ≤ s+fuel) :
    ∃ m', m.shrinkLoop s fuel = .ok m' ∧ m'.Mirror ∧ m'.size = min m.size s ∧
      m'.map.map Node.key ⊆ m.map.map Node.key := by
  induction fuel generalizing m with
  | zero => exact ⟨m, rfl, h, by omega, List.Subset.refl _⟩
  | succ fuel ih =>
    rw [LimitedMap.shrinkLoop]
    split_ifs with hlarge
    · obtain ⟨m',hdrop,hmirror,hsize,-,hkeys⟩ := h.dropLowest (by omega)
      obtain ⟨m'',hloop,hmirror'',hsize'',hkeys''⟩ := ih hmirror (by omega)
      refine ⟨m'', ?_, hmirror'', by omega, List.Subset.trans hkeys'' hkeys⟩
      rw [hdrop]
      exact hloop
    · exact ⟨m, rfl, h, by omega, List.Subset.refl _⟩

theorem Mirror.maxSize (h : m.Mirror) (s : ℕ) : ∃ m', m.maxSize s = .ok m' ∧ m'.Mirror ∧
    m'.size = (if s = 0 then m.size else min m.size s) ∧ m'.nMaxSize = s ∧
      m'.map.map Node.key ⊆ m.map.map Node.key := by
  rw [LimitedMap.maxSize]
  by_cases hs : s = 0
  · exact ⟨{ m with nMaxSize := s }, by rw [if_neg (not_not.mpr hs)]; rfl,
      ⟨h.perm, h.ids, h.keys, h.fresh⟩, by rw [if_pos hs]; rfl, rfl,
      List.Subset.refl _⟩
  · obtain ⟨m',hloop,hmirror,hsize,hkeys⟩ := h.shrinkLoop s m.size (by omega)
    refine ⟨{ m' with nMaxSize := s }, ?_, ⟨hmirror.perm, hmirror.ids, hmirror.keys, hmirror.fresh⟩,
      by rw [if_neg hs]; exact hsize, rfl, hkeys⟩
    rw [if_pos hs, hloop]
    rfl

variable [LinearOrder V]

theorem rmapInsert_perm (m : LimitedMap K V) (v : V) (it : ℕ) :
    (m.rmapInsert v it).rmap.Perm ((v,it) :: m.rmap) := List.perm_orderedInsert _ _ _

variable [DecidableEq K]

theorem Mirror.erase (h : m.Mirror) (k : K) : ∃ m', m.erase k = .ok m' ∧ m'.Mirror ∧
    m'.size ≤ m.size ∧ m'.nMaxSize = m.nMaxSize ∧ m'.map.map Node.key ⊆ m.map.map Node.key := by
  rw [LimitedMap.erase]
  cases hfind : m.find k with
  | none => exact ⟨m, rfl, h, le_rfl, rfl, List.Subset.refl _⟩
  | some node =>
    obtain ⟨hmem,-⟩ := find_eq_some hfind
    have hentry : (node.value, node.id) ∈ m.rmap := h.perm.symm.subset (List.mem_map_of_mem hmem)
    have hperm := (List.perm_cons_erase hentry).symm.trans h.perm
    refine ⟨_, if_pos hentry, ⟨perm_filter_node h.ids hperm, h.ids.sublist (List.filter_sublist.map _),
      h.keys.sublist (List.filter_sublist.map _), fun other hother =>
        h.fresh other (List.mem_of_mem_filter hother)⟩, List.length_filter_le _ _, rfl,
          (List.filter_sublist.map _).subset⟩

theorem Mirror.update (h : m.Mirror) (k : K) (v : V) : ∃ m', m.update k v = .ok m' ∧ m'.Mirror ∧
    m'.size = m.size ∧ m'.nMaxSize = m.nMaxSize ∧ m'.map.map Node.key ⊆ m.map.map Node.key := by
  rw [LimitedMap.update]
  cases hfind : m.find k with
  | none => exact ⟨m, rfl, h, rfl, rfl, List.Subset.refl _⟩
  | some node =>
    obtain ⟨hmem,-⟩ := find_eq_some hfind
    have hentry : (node.value, node.id) ∈ m.rmap := h.perm.symm.subset (List.mem_map_of_mem hmem)
    have hperm := (List.perm_cons_erase hentry).symm.trans h.perm
    have hids : ∀ other : Node K V,
        (if other.id = node.id then { other with value := v } else other).id = other.id := by
      intro other
      split_ifs <;> rfl
    have hkeys : ∀ other : Node K V,
        (if other.id = node.id then { other with value := v } else other).key = other.key := by
      intro other
      split_ifs <;> rfl
    refine ⟨_, if_pos hentry, ⟨?_, ?_, ?_, ?_⟩, List.length_map _, rfl, ?_⟩
    · exact ((rmapInsert_perm _ v node.id).trans ((perm_filter_node h.ids hperm).cons _)).trans
        (entriesOf_write h.ids hmem v).symm
    · change (List.map Node.id (List.map _ m.map)).Nodup
      rw [List.map_map]
      exact (List.map_congr_left fun other _ => hids other).symm ▸ h.ids
    · change (List.map Node.key (List.map _ m.map)).Nodup
      rw [List.map_map]
      exact (List.map_congr_left fun other _ => hkeys other).symm ▸ h.keys
    · intro other hother
      obtain ⟨old,hold,rfl⟩ := List.mem_map.mp hother
      rw [hids]
      exact h.fresh old hold
    · change List.map Node.key (List.map _ m.map) ⊆ _
      rw [List.map_map]
      exact (List.map_congr_left fun other _ => hkeys other).symm ▸ List.Subset.refl _

/-- `insert` of a key that is there changes nothing. -/
theorem insert_of_find {k : K} {node : Node K V} (hfind : m.find k = some node) (v : V) :
    m.insert k v = .ok m := by
  rw [LimitedMap.insert, hfind]

/-- The map with a new node, before `rmap` knows it. -/
def withNode (m : LimitedMap K V) (k : K) (v : V) : LimitedMap K V :=
  { m with map := m.map ++ [(⟨m.nextNode,k,v⟩ : Node K V)], nextNode := m.nextNode+1 }

theorem insert_of_new {k : K} (hfind : m.find k = none) (v : V) : m.insert k v =
    (if m.nMaxSize ≠ 0 ∧ m.size+1 = m.nMaxSize then (m.withNode k v).dropLowest
      else .ok (m.withNode k v)).map fun m' => m'.rmapInsert v m.nextNode := by
  have hsize : (m.withNode k v).size = m.size+1 := by
    rw [size, withNode, List.length_append, List.length_singleton, size]
  rw [LimitedMap.insert, hfind, ← hsize]
  change (do
    let m' ← if m.nMaxSize ≠ 0 ∧ (m.withNode k v).size = m.nMaxSize then (m.withNode k v).dropLowest
      else .ok (m.withNode k v)
    .ok (m'.rmapInsert v m.nextNode)) = _
  split_ifs
  · cases (m.withNode k v).dropLowest with
    | error fault => rfl
    | ok m' => rfl
  · rfl

/-- The new node joins the others, and its entry theirs. -/
theorem Mirror.insertEntry (h : m.Mirror) {k : K} (hfind : m.find k = none) (v : V)
    {map : List (Node K V)} {rmap : List (V × ℕ)} (hperm : rmap.Perm (entriesOf map))
    (hsub : map.Sublist m.map) : (LimitedMap.rmapInsert ⟨map ++ [(⟨m.nextNode,k,v⟩ : Node K V)],
      rmap, m.nMaxSize, m.nextNode+1⟩ v m.nextNode).Mirror := by
  have hfresh : ∀ node ∈ map, node.id < m.nextNode := fun node hnode =>
    h.fresh node (hsub.subset hnode)
  refine ⟨?_, ?_, ?_, ?_⟩
  · refine (rmapInsert_perm _ v m.nextNode).trans ?_
    change ((v, m.nextNode) :: rmap).Perm (entriesOf (map ++ [(⟨m.nextNode,k,v⟩ : Node K V)]))
    rw [entriesOf, List.map_append]
    exact (hperm.cons _).trans (List.perm_append_singleton _ _).symm
  · change ((map ++ [(⟨m.nextNode,k,v⟩ : Node K V)]).map Node.id).Nodup
    rw [List.map_append]
    apply List.Nodup.append (h.ids.sublist (hsub.map _)) (List.nodup_singleton _)
    intro id hold hnew
    obtain ⟨node,hnode,rfl⟩ := List.mem_map.mp hold
    have heq : node.id = m.nextNode := List.mem_singleton.mp hnew
    exact (hfresh node hnode).ne heq
  · change ((map ++ [(⟨m.nextNode,k,v⟩ : Node K V)]).map Node.key).Nodup
    rw [List.map_append]
    apply List.Nodup.append (h.keys.sublist (hsub.map _)) (List.nodup_singleton _)
    intro key hold hnew
    have heq : key = k := List.mem_singleton.mp hnew
    rw [heq] at hold
    exact find_eq_none hfind ((hsub.map _).subset hold)
  · intro node hnode
    rcases List.mem_append.mp hnode with hold | hnew
    · exact Nat.lt_succ_of_lt (hfresh node hold)
    · rw [List.mem_singleton.mp hnew]
      exact Nat.lt_succ_self _

/-- The only call that fails is an `insert` into an empty map of maximal size one. A map that becomes
as large as its maximal size gives up its lowest element. -/
theorem Mirror.insert (h : m.Mirror) {k : K} (hfind : m.find k = none) (v : V) :
    (m.nMaxSize = 1 ∧ m.size = 0 ∧ m.insert k v = .error .emptyRmap) ∨
    ∃ m', m.insert k v = .ok m' ∧ m'.Mirror ∧ m'.nMaxSize = m.nMaxSize ∧
      ¬ (m.nMaxSize = 1 ∧ m.size = 0) ∧
      m'.size = (if m.size+1 = m.nMaxSize then m.size else m.size+1) ∧
      m'.map.map Node.key ⊆ m.map.map Node.key ++ [k] ∧
      (m.size+1 ≠ m.nMaxSize → m'.map = m.map ++ [⟨m.nextNode,k,v⟩]) := by
  rw [insert_of_new hfind]
  -- at the limit the least entry goes
  by_cases hfull : m.size+1 = m.nMaxSize
  · rw [if_pos ⟨by omega, hfull⟩]
    cases hrmap : m.rmap with
    | nil =>
      have hsize := h.size_rmap
      rw [hrmap, List.length_nil] at hsize
      refine Or.inl ⟨by omega, hsize.symm, ?_⟩
      rw [LimitedMap.dropLowest, withNode, hrmap]
      rfl
    | cons entry rmap =>
      obtain ⟨v0,it⟩ := entry
      have hperm := h.perm
      rw [hrmap] at hperm
      -- the node behind the first entry of the reverse map is the one that goes
      obtain ⟨node,hmem,-,hid⟩ := mem_of_entry (hperm.subset List.mem_cons_self)
      have hpos : 0 < m.size := List.length_pos_of_mem hmem
      have hnext : m.nextNode ≠ it := fun heq => (h.fresh node hmem).ne (hid.trans heq.symm)
      have hany : ((m.withNode k v).map.any fun node => node.id == it) = true :=
        List.any_eq_true.mpr ⟨node, List.mem_append_left _ hmem, beq_iff_eq.mpr hid⟩
      have hkept : (m.withNode k v).map.filter (fun node => node.id != it) =
          m.map.filter (fun node => node.id != it) ++ [⟨m.nextNode,k,v⟩] := by
        rw [withNode, List.filter_append, List.filter_cons_of_pos (by simpa using hnext),
          List.filter_nil]
      have hdrop : (m.withNode k v).dropLowest =
          .ok ⟨m.map.filter (fun node => node.id != it) ++ [⟨m.nextNode,k,v⟩], rmap, m.nMaxSize,
            m.nextNode+1⟩ := by
        rw [← hkept, LimitedMap.dropLowest]
        simp only [withNode, hrmap]
        exact if_pos hany
      have hlen := (perm_node_cons h.ids hmem).length_eq
      rw [List.length_cons, hid] at hlen
      refine Or.inr ⟨_, by rw [hdrop]; rfl,
        h.insertEntry hfind v (perm_filter_node h.ids hperm) List.filter_sublist, rfl, by omega, ?_,
        ?_, fun hne => absurd hfull hne⟩
      · rw [if_pos hfull]
        change (m.map.filter (fun node : Node K V => node.id != it) ++ [_]).length = m.size
        rw [List.length_append, List.length_singleton]
        exact hlen.symm
      · change (m.map.filter (fun node : Node K V => node.id != it) ++ [_]).map Node.key ⊆ _
        rw [List.map_append]
        exact List.append_subset.mpr ⟨List.subset_append_of_subset_left _
          (List.filter_sublist.map _).subset, List.subset_append_right _ _⟩
  · rw [if_neg fun hcond => hfull hcond.2]
    refine Or.inr ⟨_, rfl, h.insertEntry hfind v h.perm (List.Sublist.refl _), rfl, by omega, ?_,
      ?_, fun _ => rfl⟩
    · rw [if_neg hfull]
      change (m.map ++ [_]).length = m.size+1
      rw [List.length_append, List.length_singleton, size]
    · change (m.map ++ [_]).map Node.key ⊆ _
      rw [List.map_append]
      exact List.Subset.refl _

end LimitedMap

end Mirror

section Runs
variable {K V : Type} {m : LimitedMap K V}

theorem LimitedMap.Mirror.init (nMaxSizeIn : ℕ) :
    (LimitedMap.init nMaxSizeIn : LimitedMap K V).Mirror where
  perm := List.Perm.refl _
  ids := List.nodup_nil
  keys := List.nodup_nil
  fresh := fun node hmem => by cases hmem

variable [DecidableEq K] [LinearOrder V]

/-- The key and the value that a call inserts. -/
def MapOp.inserted : MapOp K V → Option (K × V)
  | .insert k v => some (k,v)
  | _ => none

def insertedKeys (ops : List (MapOp K V)) : List K := (ops.filterMap MapOp.inserted).map Prod.fst

/-- One call on a map whose containers agree. -/
theorem LimitedMap.Mirror.exec (h : m.Mirror) (op : MapOp K V) :
    (m.nMaxSize = 1 ∧ op.inserted ≠ none ∧ op.exec m = .error .emptyRmap) ∨
    ∃ m', op.exec m = .ok m' ∧ m'.Mirror ∧
      (m'.nMaxSize = m.nMaxSize ∨ op = .maxSize m'.nMaxSize) ∧
      m'.map.map Node.key ⊆ m.map.map Node.key ++ insertedKeys [op] := by
  cases op with
  | insert k v =>
    cases hfind : m.find k with
    | some node =>
      exact Or.inr ⟨m, LimitedMap.insert_of_find hfind v, h, Or.inl rfl, List.subset_append_left _ _⟩
    | none =>
      rcases h.insert hfind v with ⟨hone,-,herror⟩ | ⟨m',hok,hmirror,hmax,-,-,hkeys,-⟩
      · exact Or.inl ⟨hone, Option.some_ne_none _, herror⟩
      · exact Or.inr ⟨m', hok, hmirror, Or.inl hmax, hkeys⟩
  | erase k =>
    obtain ⟨m',hok,hmirror,-,hmax,hkeys⟩ := h.erase k
    exact Or.inr ⟨m', hok, hmirror, Or.inl hmax, List.subset_append_of_subset_left _ hkeys⟩
  | update k v =>
    obtain ⟨m',hok,hmirror,-,hmax,hkeys⟩ := h.update k v
    exact Or.inr ⟨m', hok, hmirror, Or.inl hmax, List.subset_append_of_subset_left _ hkeys⟩
  | maxSize s =>
    obtain ⟨m',hok,hmirror,-,hmax,hkeys⟩ := h.maxSize s
    exact Or.inr ⟨m', hok, hmirror, Or.inr (by rw [hmax]), List.subset_append_of_subset_left _ hkeys⟩

/-- With a maximal size of zero or of two and more no call fails, and the containers agree after every
sequence of calls. -/
theorem containers_mirror {nMaxSizeIn : ℕ} (hmax : nMaxSizeIn ≠ 1) (ops : List (MapOp K V))
    (hops : ∀ s, MapOp.maxSize s ∈ ops → s ≠ 1) :
    ∃ m, runOps (LimitedMap.init nMaxSizeIn) ops = .ok m ∧ m.rmap.Perm (entriesOf m.map) ∧
      (m.map.map Node.id).Nodup ∧ (m.map.map Node.key).Nodup := by
  have hrun : ∀ m : LimitedMap K V, m.Mirror → m.nMaxSize ≠ 1 →
      ∃ m', runOps m ops = .ok m' ∧ m'.Mirror := by
    induction ops with
    | nil => exact fun m hm _ => ⟨m, rfl, hm⟩
    | cons op ops ih =>
      intro m hm hsize
      rcases hm.exec op with ⟨hone,-,-⟩ | ⟨m',hok,hm',hsize',-⟩
      · exact absurd hone hsize
      · have hne : m'.nMaxSize ≠ 1 := by
          rcases hsize' with heq | rfl
          · rw [heq]
            exact hsize
          · exact hops _ List.mem_cons_self
        obtain ⟨m'',hrest,hm''⟩ := ih (fun s hmem => hops s (List.mem_cons_of_mem _ hmem)) m' hm' hne
        refine ⟨m'', ?_, hm''⟩
        rw [runOps, List.foldlM_cons, hok]
        exact hrest
  obtain ⟨m,hok,hm⟩ := hrun _ (LimitedMap.Mirror.init nMaxSizeIn) hmax
  exact ⟨m, hok, hm.perm, hm.ids, hm.keys⟩

theorem containers_mirror_sample : ∃ m, runOps (LimitedMap.init 2 : LimitedMap ℕ ℤ)
    [.insert 1 5, .insert 2 5, .update 2 7, .maxSize 0, .insert 3 5, .erase 2] = .ok m ∧
      m.rmap.Perm (entriesOf m.map) ∧ (m.map.map Node.id).Nodup ∧ (m.map.map Node.key).Nodup :=
  containers_mirror (by decide) _ (by simp)

/-- The map keeps the elements with the highest values: no call reads an empty `rmap`, the size stays
within its bound, and after inserts alone the map has as many elements as it can, none of them below
one that is missing. -/
structure KeepsHighest (nMaxSizeIn : ℕ) (ops : List (MapOp K V)) : Prop where
  defined : ∀ done, done <+: ops → runOps (LimitedMap.init nMaxSizeIn) done ≠ .error .emptyRmap
  bounded : ∀ done m, done <+: ops → runOps (LimitedMap.init nMaxSizeIn) done = .ok m →
    m.size ≤ m.nMaxSize
  highest : (∀ op ∈ ops, op.inserted ≠ none) →
    ∃ m, runOps (LimitedMap.init nMaxSizeIn) ops = .ok m ∧ m.size = min nMaxSizeIn ops.length ∧
      (∀ node ∈ m.map, .insert node.key node.value ∈ ops) ∧
      ∀ k v, .insert k v ∈ ops → (∀ node ∈ m.map, node.key ≠ k) → ∀ node ∈ m.map, v ≤ node.value

/-- Every `insert` finds room: the maximal size is not one, and the map is below it. -/
def FindsRoom (nMaxSizeIn : ℕ) (ops : List (MapOp K V)) : Prop :=
  ∀ done op m, done ++ [op] <+: ops → op.inserted ≠ none →
    runOps (LimitedMap.init nMaxSizeIn) done = .ok m → m.nMaxSize ≠ 1 ∧ m.size < m.nMaxSize

theorem runOps_snoc (m : LimitedMap K V) (ops : List (MapOp K V)) (op : MapOp K V) :
    runOps m (ops ++ [op]) = (runOps m ops).bind fun m' => op.exec m' := by
  rw [runOps, runOps, List.foldlM_append]
  congr 1
  funext m'
  rw [List.foldlM_cons]
  cases op.exec m' with
  | error fault => rfl
  | ok m'' => rfl

/-- What a run leaves: agreeing containers, no key that was not inserted, and a size that bounds. -/
theorem LimitedMap.Mirror.run {m m' : LimitedMap K V} (h : m.Mirror) {ops : List (MapOp K V)}
    (hrun : runOps m ops = .ok m') : m'.Mirror ∧
      m'.map.map Node.key ⊆ m.map.map Node.key ++ insertedKeys ops := by
  induction ops generalizing m with
  | nil =>
    obtain rfl := Except.ok.inj hrun
    exact ⟨h, List.subset_append_left _ _⟩
  | cons op ops ih =>
    rw [runOps, List.foldlM_cons] at hrun
    rcases h.exec op with ⟨-,-,herror⟩ | ⟨next,hok,hnext,-,hkeys⟩
    · rw [herror] at hrun
      cases hrun
    · rw [hok] at hrun
      obtain ⟨hm',hkeys'⟩ := ih hnext hrun
      refine ⟨hm', ?_⟩
      have hcons : insertedKeys (op :: ops) = insertedKeys [op] ++ insertedKeys ops := by
        rw [insertedKeys, insertedKeys, insertedKeys, ← List.map_append, ← List.filterMap_append,
          List.singleton_append]
      rw [hcons, ← List.append_assoc]
      intro k hk
      rcases List.mem_append.mp (hkeys' hk) with hk | hk
      · exact List.mem_append_left _ (hkeys hk)
      · exact List.mem_append_right _ hk

omit [DecidableEq K] [LinearOrder V] in
theorem inserted_ne_none {op : MapOp K V} (h : op.inserted ≠ none) : ∃ k v, op = .insert k v := by
  cases op with
  | insert k v => exact ⟨k, v, rfl⟩
  | erase k => exact absurd rfl h
  | update k v => exact absurd rfl h
  | maxSize s => exact absurd rfl h

/-- Inserts alone leave a map below its maximal size below it. -/
theorem LimitedMap.Mirror.inserts_below {m m' : LimitedMap K V} (h : m.Mirror)
    {ops : List (MapOp K V)} (hops : ∀ op ∈ ops, op.inserted ≠ none) (hsize : m.size < m.nMaxSize)
    (hrun : runOps m ops = .ok m') : m'.size < m'.nMaxSize ∧ m'.nMaxSize = m.nMaxSize := by
  induction ops generalizing m with
  | nil =>
    obtain rfl := Except.ok.inj hrun
    exact ⟨hsize, rfl⟩
  | cons op ops ih =>
    obtain ⟨k,v,rfl⟩ := inserted_ne_none (hops op List.mem_cons_self)
    have hops' : ∀ op ∈ ops, op.inserted ≠ none := fun op hmem => hops op (List.mem_cons_of_mem _ hmem)
    rw [runOps, List.foldlM_cons, MapOp.exec] at hrun
    cases hfind : m.find k with
    | some node =>
      rw [LimitedMap.insert_of_find hfind] at hrun
      exact ih h hops' hsize hrun
    | none =>
      rcases h.insert hfind v with ⟨-,-,herror⟩ | ⟨next,hok,hnext,hmax,-,hsize',-⟩
      · rw [herror] at hrun
        cases hrun
      · rw [hok] at hrun
        have hbelow : next.size < next.nMaxSize := by
          rw [hsize', hmax]
          split_ifs <;> omega
        obtain ⟨hlt,heq⟩ := ih hnext hops' hbelow hrun
        exact ⟨hlt, heq.trans hmax⟩

/-- Inserts of new keys that do not fill the map are all kept. -/
theorem LimitedMap.Mirror.inserts_kept {m : LimitedMap K V} (h : m.Mirror)
    {ops : List (MapOp K V)} (hops : ∀ op ∈ ops, op.inserted ≠ none)
    (hnew : (m.map.map Node.key ++ insertedKeys ops).Nodup)
    (hroom : m.size+ops.length < m.nMaxSize) : ∃ m', runOps m ops = .ok m' ∧
      m'.map.map (fun node => (node.key, node.value)) =
        m.map.map (fun node => (node.key, node.value)) ++ ops.filterMap MapOp.inserted := by
  induction ops generalizing m with
  | nil => exact ⟨m, rfl, (List.append_nil _).symm⟩
  | cons op ops ih =>
    obtain ⟨k,v,rfl⟩ := inserted_ne_none (hops op List.mem_cons_self)
    have hcons : insertedKeys (.insert k v :: ops) = k :: insertedKeys ops := rfl
    rw [hcons] at hnew
    rw [List.length_cons] at hroom
    have hfind : m.find k = none := by
      cases hfind : m.find k with
      | none => rfl
      | some node =>
        obtain ⟨hmem,hkey⟩ := LimitedMap.find_eq_some hfind
        have hold : k ∈ m.map.map Node.key := hkey ▸ List.mem_map_of_mem hmem
        exact absurd List.mem_cons_self ((List.disjoint_of_nodup_append hnew) hold)
    rcases h.insert hfind v with ⟨hone,-,-⟩ | ⟨next,hok,hnext,hmax,-,hsize,-,hmap⟩
    · omega
    · have hnextmap := hmap (by omega)
      rw [if_neg (by omega)] at hsize
      obtain ⟨m',hrest,hpairs⟩ := ih hnext (fun op hmem => hops op (List.mem_cons_of_mem _ hmem))
        (by
          rw [hnextmap, List.map_append, List.append_assoc]
          exact hnew)
        (by omega)
      refine ⟨m', ?_, ?_⟩
      · rw [runOps, List.foldlM_cons, MapOp.exec, hok]
        exact hrest
      · rw [hpairs, hnextmap, List.map_append, List.append_assoc]
        rfl

/-- Where every insert finds room, no call fails and the bound is kept. -/
theorem run_of_findsRoom {nMaxSizeIn : ℕ} {ops : List (MapOp K V)}
    (hsizes : ∀ s, MapOp.maxSize s ∈ ops → 1 ≤ s) (hroom : FindsRoom nMaxSizeIn ops)
    (done : List (MapOp K V)) (hdone : done <+: ops) :
    ∃ m, runOps (LimitedMap.init nMaxSizeIn) done = .ok m ∧ m.Mirror ∧ m.size ≤ m.nMaxSize := by
  induction done using List.reverseRecOn with
  | nil => exact ⟨_, rfl, LimitedMap.Mirror.init nMaxSizeIn, Nat.zero_le _⟩
  | append_singleton done op ih =>
    obtain ⟨m,hrun,hm,hsize⟩ := ih ((List.prefix_append _ _).trans hdone)
    rw [runOps_snoc, hrun, Except.bind]
    have hop : op ∈ ops := hdone.subset (List.mem_append_right _ List.mem_cons_self)
    cases op with
    | insert k v =>
      obtain ⟨hone,hlt⟩ := hroom done _ m hdone (Option.some_ne_none _) hrun
      cases hfind : m.find k with
      | some node => exact ⟨m, LimitedMap.insert_of_find hfind v, hm, hsize⟩
      | none =>
        rcases hm.insert hfind v with ⟨hone',-,-⟩ | ⟨m',hok,hm',hmax,-,hsize',-,-⟩
        · exact absurd hone' hone
        · refine ⟨m', hok, hm', ?_⟩
          rw [hsize', hmax]
          split_ifs <;> omega
    | erase k =>
      obtain ⟨m',hok,hm',hsize',hmax,-⟩ := hm.erase k
      exact ⟨m', hok, hm', by omega⟩
    | update k v =>
      obtain ⟨m',hok,hm',hsize',hmax,-⟩ := hm.update k v
      exact ⟨m', hok, hm', by omega⟩
    | maxSize s =>
      obtain ⟨m',hok,hm',hsize',hmax,-⟩ := hm.maxSize s
      have hs := hsizes s hop
      rw [if_neg (by omega)] at hsize'
      exact ⟨m', hok, hm', by omega⟩

/-- The map keeps the elements with the highest values exactly when every insert finds room and inserts
alone do not reach the maximal size. -/
theorem keepsHighest_iff {nMaxSizeIn : ℕ} (hmax : 1 ≤ nMaxSizeIn) (ops : List (MapOp K V))
    (hkeys : (insertedKeys ops).Nodup) (hsizes : ∀ s, MapOp.maxSize s ∈ ops → 1 ≤ s) :
    KeepsHighest nMaxSizeIn ops ↔ FindsRoom nMaxSizeIn ops ∧
      ((∀ op ∈ ops, op.inserted ≠ none) → ops.length < nMaxSizeIn) := by
  constructor
  · intro h
    refine ⟨?_, ?_⟩
    · intro done op m hdone hop hrun
      obtain ⟨k,v,rfl⟩ := inserted_ne_none hop
      obtain ⟨hm,hold⟩ := (LimitedMap.Mirror.init nMaxSizeIn).run hrun
      -- the key is inserted for the first time
      have hnew : (insertedKeys done ++ [k]).Nodup := by
        have hsub : (insertedKeys (done ++ [.insert k v])).Sublist (insertedKeys ops) :=
          (hdone.sublist.filterMap _).map _
        rw [insertedKeys, List.filterMap_append, List.map_append] at hsub
        exact hkeys.sublist hsub
      have hfind : m.find k = none := by
        cases hfind : m.find k with
        | none => rfl
        | some node =>
          obtain ⟨hmem,hkey⟩ := LimitedMap.find_eq_some hfind
          have hin := hold (List.mem_map_of_mem hmem)
          rw [hkey] at hin
          exact absurd List.mem_cons_self (List.disjoint_of_nodup_append hnew hin)
      have hsnoc := runOps_snoc (LimitedMap.init nMaxSizeIn) done (.insert k v)
      rw [hrun] at hsnoc
      rcases hm.insert hfind v with ⟨-,-,herror⟩ | ⟨m',hok,-,hmax',hsome,hsize,-,-⟩
      · exact absurd (hsnoc.trans herror) (h.defined _ hdone)
      · have hbound := h.bounded _ m' hdone (hsnoc.trans hok)
        split_ifs at hsize with hfull
        · exact ⟨fun hone => hsome ⟨hone, by omega⟩, by omega⟩
        · exact ⟨fun hone => hsome ⟨hone, by omega⟩, by omega⟩
    · intro hops
      obtain ⟨m,hrun,hsize,-,-⟩ := h.highest hops
      have hbelow := (LimitedMap.Mirror.init nMaxSizeIn).inserts_below hops
        (show 0 < nMaxSizeIn from hmax) hrun
      have hsame : m.nMaxSize = nMaxSizeIn := hbelow.2
      omega
  · rintro ⟨hroom,hshort⟩
    refine ⟨?_, ?_, ?_⟩
    · intro done hdone herror
      obtain ⟨m,hrun,-,-⟩ := run_of_findsRoom hsizes hroom done hdone
      rw [hrun] at herror
      cases herror
    · intro done m hdone hrun
      obtain ⟨m',hrun',-,hsize⟩ := run_of_findsRoom hsizes hroom done hdone
      rw [hrun] at hrun'
      rw [Except.ok.inj hrun']
      exact hsize
    · intro hops
      have hlen := hshort hops
      obtain ⟨m,hrun,hpairs⟩ := (LimitedMap.Mirror.init nMaxSizeIn).inserts_kept hops hkeys
        (show 0+ops.length < nMaxSizeIn by omega)
      have hall : (ops.filterMap MapOp.inserted).length = ops.length := by
        apply le_antisymm (List.length_filterMap_le _ _)
        apply not_lt.mp
        intro hlt
        obtain ⟨op,hmem,hnone⟩ := List.length_filterMap_lt_length_iff_exists.mp hlt
        exact hops op hmem hnone
      have hnil : (LimitedMap.init nMaxSizeIn : LimitedMap K V).map = [] := rfl
      rw [hnil, List.map_nil, List.nil_append] at hpairs
      have hsize : m.size = ops.length := by
        rw [LimitedMap.size, ← hall, ← hpairs, List.length_map]
      refine ⟨m, hrun, by omega, ?_, ?_⟩
      · intro node hnode
        have hin : (node.key, node.value) ∈ ops.filterMap MapOp.inserted :=
          hpairs ▸ List.mem_map_of_mem hnode
        obtain ⟨op,hop,heq⟩ := List.mem_filterMap.mp hin
        obtain ⟨k,v,rfl⟩ := inserted_ne_none (hops op hop)
        obtain ⟨rfl,rfl⟩ := Prod.mk.inj (Option.some.inj heq)
        exact hop
      · intro k v hop hmissing
        have hin : (k,v) ∈ m.map.map fun node => (node.key, node.value) :=
          hpairs ▸ List.mem_filterMap.mpr ⟨_, hop, rfl⟩
        obtain ⟨node,hnode,heq⟩ := List.mem_map.mp hin
        exact absurd (Prod.mk.inj heq).1 (hmissing node hnode)

theorem keepsHighest_iff_sample :
    KeepsHighest 3 [MapOp.insert 1 (5 : ℤ), .insert 2 4, .erase 1] ↔
      FindsRoom 3 [MapOp.insert 1 (5 : ℤ), .insert 2 4, .erase 1] ∧
        ((∀ op ∈ [MapOp.insert 1 (5 : ℤ), .insert 2 4, .erase 1], op.inserted ≠ none) → 3 < 3) :=
  keepsHighest_iff (K := ℕ) (by decide) _ (by decide) (by simp)

/-- The first insert into a map for one element reads an empty `rmap`; a map for two elements holds one,
and not the higher one. -/
theorem limitedmap_loses :
    runOps (LimitedMap.init 1 : LimitedMap ℕ ℤ) [.insert 1 5] = .error .emptyRmap ∧
    (runOps (LimitedMap.init 2 : LimitedMap ℕ ℤ) [.insert 1 10, .insert 2 5]).map
      (fun m => m.map.map fun node => (node.key, node.value)) = .ok [(2,5)] ∧
    ¬ KeepsHighest 2 [MapOp.insert 1 (10 : ℤ), .insert 2 5] := by
  refine ⟨rfl, rfl, ?_⟩
  intro h
  obtain ⟨m,hrun,hsize,-,-⟩ := h.highest (by decide)
  have hone : (runOps (LimitedMap.init 2 : LimitedMap ℕ ℤ) [.insert 1 10, .insert 2 5]).map
    LimitedMap.size = .ok 1 := rfl
  rw [hrun] at hone
  have hone' : m.size = 1 := Except.ok.inj hone
  rw [hone'] at hsize
  exact absurd hsize (by decide)

end Runs

end Candypool.Net
