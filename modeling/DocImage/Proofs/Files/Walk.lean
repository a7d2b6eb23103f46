import Mathlib.Tactic
import DocImage.Files.Access

/-!
Where walks end. On the way of a walk that follows all links nothing is a link, and every place is
an entry of the directory before it (`IsWay`), so what a path leads to stands at the place found for
it (`node?_of_canonicalize`), and it is found there again when that place is looked up
(`findAt_of_canonicalize`). Files that stay as they are therefore have at a place what has been
found there (`Accesses.metadata_still`, `Accesses.contents_still`).
-/

namespace DocImage

lemma Node.find?_snoc (node : Node) (location : Location) (name : Bytes) :
    node.find? (location ++ [name]) = (node.find? location).bind (Node.child? · name) := by
  induction location generalizing node with
  | nil =>
      rw [List.nil_append, find?, find?, Option.bind_some]
      cases node.child? name <;> rfl
  | cons n location ih =>
      rw [List.cons_append, find?, find?]
      cases node.child? n with
      | none => rfl
      | some child => exact ih child

/-- The place to which one more step leads. -/
lemma Trail.location_cons (name : Bytes) (node : Node) (trail : Trail) :
    Trail.location ((name, node) :: trail) = trail.location ++ [name] := by
  rw [location, List.map_cons, List.reverse_cons]
  rfl

namespace FileTree

variable {tree : FileTree} {trail : Trail}

/-- A way along which every place is an entry of the directory before it, under a name that is
looked up there, and is no link. -/
inductive IsWay (tree : FileTree) : Trail → Prop where
  | root : IsWay tree []
  | step {trail : Trail} {name : Bytes} {node : Node} :
    IsWay tree trail → (tree.reached trail).child? name = some node →
    Path.isStep name = true → name ≠ [Path.dot, Path.dot] → name.length ≤ maxNameLength →
    (∀ target, node ≠ .link target) → IsWay tree ((name, node) :: trail)

lemma IsWay.tail (h : tree.IsWay trail) : tree.IsWay trail.tail := by
  cases h with
  | root => exact .root
  | step h => exact h

/-- Everything on a way stands at the place to which the way leads there. -/
lemma IsWay.node? (h : tree.IsWay trail) :
    tree.node? trail.location = some (tree.reached trail) := by
  induction h with
  | root => rfl
  | step _ hchild _ _ _ _ ih =>
      rw [Trail.location_cons, FileTree.node?, Node.find?_snoc]
      exact Option.bind_eq_some_iff.mpr ⟨_, ih, hchild⟩

/-- Where all links are followed, a walk goes on to what stands under a name if it is no link. -/
lemma walk_followed_step {name : Bytes} {node : Node}
    (hchild : (tree.reached trail).child? name = some node) (hstep : Path.isStep name = true)
    (hne : name ≠ [Path.dot, Path.dot]) (hlen : name.length ≤ maxNameLength)
    (hlink : ∀ target, node ≠ .link target) (links : Nat) (names : List Bytes) :
    tree.walk .followed links trail (name :: names) =
      tree.walk .followed links ((name, node) :: trail) names := by
  have hdeep : tree.isTooDeep .followed trail (name :: names) = false := rfl
  cases hr : tree.reached trail with
  | file contents modified readable =>
      rw [hr] at hchild
      cases hchild
  | link target =>
      rw [hr] at hchild
      cases hchild
  | directory entries modified length =>
      rw [hr] at hchild
      rw [walk]
      simp only [hr, hstep, Bool.not_true, Bool.false_eq_true, if_false, if_neg hne, hdeep,
        reduceCtorEq, false_and, if_neg (Nat.not_lt.mpr hlen)]
      rw [show entries.lookup name = some node from hchild]
      cases node with
      | link target => exact absurd rfl (hlink target)
      | file | directory => rfl

/-- A walk to a place finds the way that leads there. -/
lemma IsWay.walk_followed (h : tree.IsWay trail) (links : Nat) (names : List Bytes) :
    tree.walk .followed links [] (trail.location ++ names) =
      tree.walk .followed links trail names := by
  induction h generalizing names with
  | root => rfl
  | step _ hchild hstep hne hlen hlink ih =>
      rw [Trail.location_cons, List.append_assoc, List.singleton_append, ih,
        walk_followed_step hchild hstep hne hlen hlink]

/-- What is there where a way leads is found when the place is looked up. -/
lemma IsWay.findAt (h : tree.IsWay trail) :
    tree.findAt trail.location = .ok (tree.reached trail) := by
  have hw := h.walk_followed maxLinks []
  rw [List.append_nil] at hw
  rw [FileTree.findAt, hw, walk]
  rfl

/-- A walk that follows all links ends where a way leads. -/
lemma exists_isWay_of_walk {manner : Walk} (hm : manner ≠ .kept) {links : Nat} {names : List Bytes}
    {location : Location} {node : Node} (ht : tree.IsWay trail)
    (h : tree.walk manner links trail names = .ok (.present location node)) :
    ∃ way, tree.IsWay way ∧ way.location = location ∧ tree.reached way = node := by
  fun_induction walk tree manner links trail names with
  | case1 links trail =>
      obtain ⟨rfl, rfl⟩ := Target.present.inj (Except.ok.inj h)
      exact ⟨trail, ht, rfl, rfl⟩
  | case4 links trail name names entries modified length hr hs ih => exact ih ht h
  | case5 links trail names entries modified length hr hs ih => exact ih ht.tail h
  | case11 links trail name names entries modified length hr _ _ _ _ _ target hl there hk =>
      exact absurd hk.2 hm
  | case13 trail name names entries modified length hr _ _ _ _ _ target hl hk links start ih =>
      refine ih ?_ h
      rw [show start = if Path.isAbsolute target then [] else trail from rfl]
      split
      · exact .root
      · exact ht
  | case14 links trail name names entries modified length hr hs hne _ _ hlen node hlink hl ih =>
      refine ih (ht.step ?_ ?_ hne (not_lt.mp hlen) hlink) h
      · rw [hr]
        exact hl
      · simpa using hs
  | _ => cases h

/-- What a path leads to is where a way leads. -/
lemma exists_isWay_of_canonicalize {path : Path} {location : Location} {node : Node}
    (h : tree.canonicalize path = .ok (location, node)) :
    ∃ way, tree.IsWay way ∧ way.location = location ∧ tree.reached way = node := by
  rw [canonicalize] at h
  obtain ⟨_, -, h⟩ := Except.bind_eq_ok_iff.mp h
  obtain ⟨target, hwalk, h⟩ := Except.bind_eq_ok_iff.mp h
  cases target with
  | present found there =>
      obtain ⟨rfl, rfl⟩ := Prod.mk.inj (Except.ok.inj h)
      exact exists_isWay_of_walk (by decide) .root hwalk
  | vacant directory name => cases h

variable {path : Path} {location : Location} {node : Node}

/-- What a path leads to stands at the place found for it. -/
lemma node?_of_canonicalize (h : tree.canonicalize path = .ok (location, node)) :
    tree.node? location = some node := by
  obtain ⟨way, hway, rfl, rfl⟩ := exists_isWay_of_canonicalize h
  exact hway.node?

lemma node?_of_lookup {manner : Walk} (hm : manner ≠ .kept)
    (h : tree.lookup manner path = .ok (.present location node)) :
    tree.node? location = some node := by
  obtain ⟨_, -, hwalk⟩ := Except.bind_eq_ok_iff.mp h
  obtain ⟨way, hway, rfl, rfl⟩ := exists_isWay_of_walk hm .root hwalk
  exact hway.node?

/-- What a path leads to is found again at the place found for it. -/
lemma findAt_of_canonicalize (h : tree.canonicalize path = .ok (location, node)) :
    tree.findAt location = .ok node := by
  obtain ⟨way, hway, rfl, rfl⟩ := exists_isWay_of_canonicalize h
  exact hway.findAt

end FileTree

/-! ### Files that stay as they are -/

namespace Accesses

variable {tree : FileTree} {path : Path} {location : Location} {node : Node}

lemma canonicalize_still (tree : FileTree) (path : Path) :
    (still tree).canonicalize path = (tree.canonicalize path).map Prod.fst := by
  rw [canonicalize]
  cases h : tree.canonicalize path <;> simp only [still, bind, Except.bind, h] <;> rfl

lemma metadata_still (h : tree.canonicalize path = .ok (location, node)) :
    (still tree).metadata location = .ok node.metadata := by
  simp only [metadata, still, bind, Except.bind, FileTree.findAt_of_canonicalize h]
  rfl

lemma contents_still (h : tree.canonicalize path = .ok (location, node)) :
    (still tree).contents location = FileTree.contents node := by
  simp only [contents, still, bind, Except.bind, FileTree.findAt_of_canonicalize h]

end Accesses

end DocImage
