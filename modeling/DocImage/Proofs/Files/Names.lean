import DocImage.Files.Error
import DocImage.Proofs.Files.Walk
import DocImage.Proofs.Text.Occurrence

/-!
The names on the way to a place. What a path leads to is found along names that stand for places of
their own (`Path.IsName`, `isName_of_canonicalize`), so the path of such a place can be taken apart
into the names again (`Location.components_path`).
-/

namespace DocImage

namespace Path

/-- A name that something can have in a directory: it stands for a place of its own, which is not
the directory above, and holds no slash. -/
structure IsName (name : Bytes) : Prop where
  isStep : isStep name = true
  ne_above : name ≠ [dot, dot]
  slash_notMem : slash ∉ name

/-- No name of a path holds a slash. -/
lemma slash_notMem_of_mem_names {path : Path} : ∀ name ∈ names path, slash ∉ name := by
  rw [names]
  induction path using induction_on_separator slash with
  | piece name h => rwa [List.splitOn_eq_singleton h, List.forall_mem_singleton]
  | separated name rest h ih =>
      rw [List.splitOn_append_cons_self_of_not_mem h, List.forall_mem_cons]
      exact ⟨h, ih⟩

/-- Names that are put behind a name, each with a slash before it, are found again. -/
lemma splitOn_append_flatMap {name : Bytes} {names : List Bytes} (h : slash ∉ name)
    (hs : ∀ name ∈ names, slash ∉ name) :
    (name ++ names.flatMap fun name => slash :: name).splitOn slash = name :: names := by
  induction names generalizing name with
  | nil => rw [List.flatMap_nil, List.append_nil, List.splitOn_eq_singleton h]
  | cons next names ih =>
      rw [List.forall_mem_cons] at hs
      rw [List.flatMap_cons, List.cons_append, List.splitOn_append_cons_self_of_not_mem h,
        ih hs.1 hs.2]

/-- A path that is put together from names consists of them. -/
lemma components_ofComponents {names : List Bytes} (h : ∀ name ∈ names, IsName name) :
    components (ofComponents names) = names := by
  rw [ofComponents]
  split
  · next hn =>
      subst hn
      decide
  · have hs := splitOn_append_flatMap (List.not_mem_nil : slash ∉ []) fun name hm =>
      (h name hm).slash_notMem
    rw [List.nil_append] at hs
    rw [components, Path.names, hs, List.filter_cons_of_neg (by decide), List.filter_eq_self]
    exact fun name hm => (h name hm).isStep

end Path

/-- A place has an absolute path. -/
lemma Location.isAbsolute_path (location : Location) : Path.isAbsolute location.path = true := by
  rw [path, Path.ofComponents]
  split
  · rfl
  · cases location with
    | nil => contradiction
    | cons name location => rfl

/-- The path of a place consists of the names that lead to it. -/
lemma Location.components_path {location : Location} (h : ∀ name ∈ location, Path.IsName name) :
    Path.components location.path = location :=
  Path.components_ofComponents h

namespace FileTree

variable {tree : FileTree}

/-- Along names without slashes a walk finds a place along names that something can have. -/
lemma isName_of_walk {manner : Walk} {links : Nat} {trail : Trail} {names : List Bytes}
    {location : Location} {node : Node} (ht : ∀ entry ∈ trail, Path.IsName entry.1)
    (hn : ∀ name ∈ names, Path.slash ∉ name)
    (h : tree.walk manner links trail names = .ok (.present location node)) :
    ∀ name ∈ location, Path.IsName name := by
  have hlocation : ∀ trail : Trail, (∀ entry ∈ trail, Path.IsName entry.1) →
      ∀ name ∈ trail.location, Path.IsName name := by
    intro trail ht name hm
    obtain ⟨entry, he, rfl⟩ := List.mem_map.mp (List.mem_reverse.mp hm)
    exact ht entry he
  fun_induction walk tree manner links trail names with
  | case1 links trail =>
      obtain ⟨rfl, rfl⟩ := Target.present.inj (Except.ok.inj h)
      exact hlocation _ ht
  | case4 links trail name names entries modified length hr hs ih =>
      exact ih ht (List.forall_mem_cons.mp hn).2 h
  | case5 links trail names entries modified length hr hs ih =>
      exact ih (fun entry hm => ht entry (List.mem_of_mem_tail hm)) (List.forall_mem_cons.mp hn).2 h
  | case11 links trail name names entries modified length hr hs ha _ _ _ target hl there hk =>
      obtain ⟨rfl, rfl⟩ := Target.present.inj (Except.ok.inj h)
      have hname : Path.IsName name := ⟨by simpa using hs, ha, (List.forall_mem_cons.mp hn).1⟩
      exact hlocation _ (List.forall_mem_cons.mpr ⟨hname, ht⟩)
  | case13 trail name names entries modified length hr _ _ _ _ _ target hl hk links start ih =>
      refine ih ?_ (List.forall_mem_append.mpr
        ⟨Path.slash_notMem_of_mem_names, (List.forall_mem_cons.mp hn).2⟩) h
      rw [show start = if Path.isAbsolute target then [] else trail from rfl]
      split
      · exact fun _ hm => absurd hm List.not_mem_nil
      · exact ht
  | case14 links trail name names entries modified length hr hs ha _ _ _ node _ hl ih =>
      have hname : Path.IsName name := ⟨by simpa using hs, ha, (List.forall_mem_cons.mp hn).1⟩
      exact ih (List.forall_mem_cons.mpr ⟨hname, ht⟩) (List.forall_mem_cons.mp hn).2 h
  | _ => cases h

/-- What a path leads to is found along names that something can have. -/
lemma isName_of_canonicalize {path : Path} {location : Location} {node : Node}
    (hw : ∀ name ∈ tree.workingDirectory, Path.slash ∉ name)
    (h : tree.canonicalize path = .ok (location, node)) : ∀ name ∈ location, Path.IsName name := by
  rw [canonicalize] at h
  obtain ⟨_, -, h⟩ := Except.bind_eq_ok_iff.mp h
  obtain ⟨target, hwalk, h⟩ := Except.bind_eq_ok_iff.mp h
  cases target with
  | present found there =>
      obtain ⟨rfl, rfl⟩ := Prod.mk.inj (Except.ok.inj h)
      refine isName_of_walk (fun _ hm => absurd hm List.not_mem_nil) ?_ hwalk
      split
      · exact Path.slash_notMem_of_mem_names
      · exact List.forall_mem_append.mpr ⟨hw, Path.slash_notMem_of_mem_names⟩
  | vacant directory name => cases h

end FileTree

end DocImage
