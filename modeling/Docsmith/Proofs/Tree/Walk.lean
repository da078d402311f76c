import Docsmith.Proofs.Tree.Siblings
import Mathlib.Data.List.Lex

namespace Docsmith

/-!
# The first fault on a walk

A node of a tree has an address: the numbers of the children on the way down to it from the root.  A walk meets
the nodes in the order of their addresses, each of them once.  Where the flags of a tree agree with its faults,
going down into the first flawed child each time leads to the first fault on the walk.

* `Node.at?`, `Node.addresses`: the node at an address, and all addresses of a tree.
* `pairwise_addresses`, `mem_addresses`: the addresses are in lexicographic order, and all of them are there.
* `map_preorder`: the nodes at the addresses are those of the tree, a parent before its children.
* `Node.FlagsAgree`: a node is flagged exactly if there is a fault in it.
* `errorRow_eq`: the row of the error is that of the first fault below the root.
* `errorRow_is_first_on_walk`: the walk, and the first fault on it.
-/

namespace Node

/-- The node at an address. -/
def at? : Node → List Nat → Option Node
  | n, [] => some n
  | n, i :: address => n.children[i]?.bind (at? · address)

mutual

/-- The addresses of the nodes of a tree, a parent before its children. -/
def addresses : Node → List (List Nat)
  | mk _ cs => [] :: addressesFrom 0 cs

/-- The addresses of the nodes of some siblings, the first of which has a number. -/
def addressesFrom : Nat → List Node → List (List Nat)
  | _, [] => []
  | i, c :: cs => (addresses c).map (i :: ·) ++ addressesFrom (i + 1) cs

end

/-- A node is flagged exactly if it is at fault or a node below it is. -/
def FlagsAgree (root : Node) : Prop :=
  ∀ n ∈ root.preorder, n.label.hasError = true ↔ ∃ m ∈ n.preorder, m.isFault = true

instance (root : Node) : Decidable root.FlagsAgree :=
  inferInstanceAs (Decidable (∀ n ∈ root.preorder, _))

/-! ### Addresses -/

/-- An address among siblings begins with the number of one of them. -/
theorem mem_addressesFrom {i : Nat} {cs : List Node} {address : List Nat} : address ∈ addressesFrom i cs ↔
    ∃ k c rest, cs[k]? = some c ∧ rest ∈ c.addresses ∧ address = (i + k) :: rest := by
  induction cs generalizing i with
  | nil => simp [addressesFrom]
  | cons c cs ih =>
    rw [addressesFrom, List.mem_append, List.mem_map, ih]
    constructor
    · rintro (⟨rest, hrest, rfl⟩ | ⟨k, d, rest, hd, hrest, rfl⟩)
      · exact ⟨0, c, rest, rfl, hrest, rfl⟩
      · exact ⟨k + 1, d, rest, hd, hrest, by rw [Nat.add_right_comm, Nat.add_assoc]⟩
    · rintro ⟨k, d, rest, hd, hrest, rfl⟩
      cases k with
      | zero =>
        cases hd
        exact .inl ⟨rest, hrest, rfl⟩
      | succ k => exact .inr ⟨k, d, rest, hd, hrest, by rw [Nat.add_right_comm, Nat.add_assoc]⟩

mutual

/-- **The addresses of a tree are in lexicographic order**, each of them once. -/
theorem pairwise_addresses : ∀ n : Node, n.addresses.Pairwise (· < ·)
  | mk label cs => by
    rw [addresses, List.pairwise_cons]
    refine ⟨fun address haddress => ?_, pairwise_addressesFrom 0 cs⟩
    obtain ⟨k, c, rest, -, -, rfl⟩ := mem_addressesFrom.mp haddress
    exact List.nil_lt_cons _ _

/-- The addresses among siblings are in lexicographic order. -/
theorem pairwise_addressesFrom : ∀ (i : Nat) (cs : List Node), (addressesFrom i cs).Pairwise (· < ·)
  | _, [] => by simp [addressesFrom]
  | i, c :: cs => by
    rw [addressesFrom, List.pairwise_append]
    refine ⟨?_, pairwise_addressesFrom (i + 1) cs, fun a ha b hb => ?_⟩
    · exact (pairwise_addresses c).map _ fun a b hab => List.cons_lt_cons_iff.mpr (.inr ⟨rfl, hab⟩)
    · -- the number of a later sibling is greater
      obtain ⟨a, -, rfl⟩ := List.mem_map.mp ha
      obtain ⟨k, -, rest, -, -, rfl⟩ := mem_addressesFrom.mp hb
      exact List.cons_lt_cons_iff.mpr (.inl (by omega))

end

/-- **Every address at which there is a node is among those of the tree.** -/
theorem mem_addresses (n : Node) {address : List Nat} :
    address ∈ n.addresses ↔ (n.at? address).isSome = true := by
  induction address generalizing n with
  | nil => cases n; simp [addresses, at?]
  | cons i address ih =>
    obtain ⟨label, cs⟩ := n
    simp only [addresses, List.mem_cons, reduceCtorEq, false_or, mem_addressesFrom, at?, children]
    cases hc : cs[i]? with
    | none => simp [hc]
    | some c => simp [hc, ih]

/-- The nodes at the addresses of the last siblings are those of their trees. -/
theorem map_preorderAll (label : Label) (earlier cs : List Node)
    (h : ∀ c ∈ cs, c.preorder.map some = c.addresses.map c.at?) :
    (preorderAll cs).map some = (addressesFrom earlier.length cs).map (at? (mk label (earlier ++ cs))) := by
  induction cs generalizing earlier with
  | nil => rfl
  | cons c cs ih =>
    have hrest := ih (earlier ++ [c]) fun d hd => h d (List.mem_cons_of_mem c hd)
    rw [List.length_append, List.length_singleton, List.append_assoc, List.singleton_append] at hrest
    rw [preorderAll, addressesFrom, List.map_append, List.map_append, hrest, h c List.mem_cons_self, List.map_map]
    congr 1
    refine List.map_congr_left fun address _ => ?_
    simp [at?, children]

/-- **The nodes at the addresses of a tree are those of the tree**, a parent before its children. -/
theorem map_preorder (n : Node) : n.preorder.map some = n.addresses.map n.at? := by
  induction n using Node.induction with
  | _ n ih =>
    obtain ⟨label, cs⟩ := n
    rw [preorder, addresses, List.map_cons, List.map_cons]
    congr 1
    exact map_preorderAll label [] cs ih

/-! ### Faults -/

/-- The row of the error among some flagged trees is that of their first fault. -/
theorem errorRowAmong_eq {cs : List Node} (hflags : ∀ c ∈ cs, c.FlagsAgree)
    (h : ∀ c ∈ cs, c.errorRow = (((preorderAll c.children).find? isFault).getD c).row) :
    errorRowAmong cs = ((preorderAll cs).find? isFault).map row := by
  induction cs with
  | nil => rfl
  | cons c cs ih =>
    have hrest := ih (fun d hd => hflags d (List.mem_cons_of_mem c hd)) fun d hd => h d (List.mem_cons_of_mem c hd)
    have hflag := hflags c List.mem_cons_self c (mem_preorder.mpr (.inl rfl))
    have hnodes : c.preorder = c :: preorderAll c.children := by cases c; rfl
    rw [errorRowAmong, preorderAll, List.find?_append]
    by_cases hfault : c.isFault = true
    · -- the tree begins with its fault
      have hflawed : c.flawed = true := by
        rw [flawed, hflag.mpr ⟨c, mem_preorder.mpr (.inl rfl), hfault⟩, Bool.true_or]
      rw [if_pos hflawed, if_pos hfault, hnodes, List.find?_cons_of_pos hfault]
      rfl
    · have hmissing : c.label.missing = false := by
        simp only [isFault, Bool.or_eq_true, not_or, Bool.not_eq_true] at hfault
        exact hfault.2
      have hflawed : c.flawed = true ↔ ∃ m ∈ c.preorder, m.isFault = true := by
        rw [flawed, hmissing, Bool.or_false, hflag]
      have hbelow : c.preorder.find? isFault = (preorderAll c.children).find? isFault := by
        rw [hnodes, List.find?_cons_of_neg hfault]
      rw [hbelow]
      cases hfind : (preorderAll c.children).find? isFault with
      | some m =>
        -- the first fault is below the root of the first tree
        have hsome : ∃ m ∈ c.preorder, m.isFault = true :=
          ⟨m, List.mem_of_find?_eq_some (hbelow.trans hfind), List.find?_some hfind⟩
        rw [if_pos (hflawed.mpr hsome), if_neg hfault, h c List.mem_cons_self, hfind]
        rfl
      | none =>
        have hnone : ¬ ∃ m ∈ c.preorder, m.isFault = true := by
          rintro ⟨m, hm, hm'⟩
          exact List.find?_eq_none.mp (hbelow.trans hfind) m hm hm'
        rw [if_neg (mt hflawed.mp hnone), hrest]
        rfl

/-- **The row of the error is that of the first fault below the root**, or of the root if there is none. -/
theorem errorRow_eq {n : Node} (hflags : n.FlagsAgree) :
    n.errorRow = (((preorderAll n.children).find? isFault).getD n).row := by
  induction n using Node.induction with
  | _ n ih =>
    have hparts : ∀ c ∈ n.children, c.FlagsAgree := fun c hc m hm =>
      hflags m (mem_preorder.mpr (.inr ⟨c, hc, hm⟩))
    have hrow : n.errorRow = (errorRowAmong n.children).getD n.row := by cases n; rfl
    rw [hrow, errorRowAmong_eq hparts fun c hc => ih c hc (hparts c hc), Option.getD_map]

/-- **The walk and the first fault on it.**  The walk meets the nodes of the tree in recursive preorder, whatever
    number of visits is allowed beyond that of the nodes: the nodes at all addresses of the tree, in the order of
    the addresses, each of them once.  Where the flags agree with the faults, the row of the error is that of the
    first node on the walk behind the root that is at fault, or of the root if there is none. -/
theorem errorRow_is_first_on_walk (root : Node) :
    root.walk = root.preorder ∧
    (∀ steps, root.size ≤ steps → visit steps [root] = root.walk) ∧
    (root.addresses.Pairwise (· < ·) ∧ (∀ address, address ∈ root.addresses ↔ (root.at? address).isSome = true) ∧
      root.walk.map some = root.addresses.map root.at?) ∧
    (root.FlagsAgree → root.errorRow = ((root.walk.tail.find? isFault).getD root).row) := by
  have hwalk := walk_eq root
  refine ⟨hwalk, fun steps hsteps => ?_, ⟨pairwise_addresses root, fun _ => mem_addresses root, ?_⟩, fun hflags => ?_⟩
  · rw [hwalk, visit_eq (by simpa [sizeAll] using hsteps), preorderAll, preorderAll, List.append_nil]
  · rw [hwalk, map_preorder]
  · have htail : root.preorder.tail = preorderAll root.children := by cases root; rfl
    rw [hwalk, htail]
    exact errorRow_eq hflags

/-- A tree with a fault below its second child and a missing token behind it: the first child is visited in vain,
    and the row is that of the fault. -/
theorem errorRow_is_first_on_walk_of_seven :
    let leaf (kind : String) (row : Nat) (flagged missing : Bool) : Node :=
      mk { kind := kind, extent := ⟨row, row, row, row⟩, hasError := flagged, missing := missing } []
    let inner (kind : String) (row : Nat) (flagged : Bool) (children : List Node) : Node :=
      mk { kind := kind, extent := ⟨row, row, row, row⟩, hasError := flagged } children
    let root := inner "source_file" 0 true
      [inner "block" 1 false [leaf "name" 2 false false],
       inner "block" 3 true [leaf "name" 4 false false, leaf "ERROR" 5 true false],
       leaf ")" 6 true true]
    root.FlagsAgree ∧ root.walk.map kind = ["source_file", "block", "name", "block", "name", "ERROR", ")"] ∧
      root.addresses = [[], [0], [0, 0], [1], [1, 0], [1, 1], [2]] ∧ root.errorRow = 5 := by
  intro leaf inner root
  have hflags : root.FlagsAgree := by decide
  obtain ⟨hwalk, -, -, hrow⟩ := errorRow_is_first_on_walk root
  refine ⟨hflags, by rw [hwalk]; rfl, rfl, ?_⟩
  rw [hrow hflags, hwalk]
  rfl

end Node

end Docsmith
