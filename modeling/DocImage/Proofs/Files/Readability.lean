import Mathlib.Tactic
import DocImage.Files.Step
import DocImage.Proofs.Files.Walk

/-!
No change of the files makes a file unreadable: a file that cannot be read after a change could not
be read at its place before (`FileStep.unreadable_of_apply`). A change puts a file where one stood
only if it is as readable as that one was, and puts a directory only where one with the same entries
stood or as an empty one.
-/

namespace DocImage

namespace Node

/-- A file that cannot be read stands at a place below something, if that is there. -/
def HasUnreadable (node : Option Node) (location : Location) : Prop :=
  ∃ contents modified, node.bind (·.find? location) = some (.file contents modified false)

lemma not_hasUnreadable_none (location : Location) : ¬ HasUnreadable none location :=
  fun ⟨_, _, h⟩ => nomatch h

lemma hasUnreadable_file_iff {contents : Bytes} {modified : Time} {readable : Bool}
    {location : Location} :
    HasUnreadable (some (.file contents modified readable)) location ↔
      location = [] ∧ readable = false := by
  cases location <;> simp [HasUnreadable, find?, child?]

lemma not_hasUnreadable_link (target : Path) (location : Location) :
    ¬ HasUnreadable (some (.link target)) location := by
  cases location <;> simp [HasUnreadable, find?, child?]

/-- Below a directory only its entries count. -/
lemma hasUnreadable_directory_iff {entries : List (Bytes × Node)} {modified : Time} {length : Nat}
    {location : Location} :
    HasUnreadable (some (.directory entries modified length)) location ↔
      ∃ name rest, location = name :: rest ∧ HasUnreadable (entries.lookup name) rest := by
  cases location with
  | nil => simp [HasUnreadable, find?]
  | cons name rest =>
      simp only [HasUnreadable, Option.bind_some, find?, child?]
      constructor
      · rintro ⟨contents, modified, h⟩
        refine ⟨name, rest, rfl, contents, modified, ?_⟩
        cases hl : entries.lookup name with
        | none =>
            rw [hl] at h
            cases h
        | some node =>
            rw [hl] at h
            exact h
      · rintro ⟨_, _, ⟨⟩, contents, modified, h⟩
        obtain ⟨node, hl, h⟩ := Option.bind_eq_some_iff.mp h
        exact ⟨contents, modified, by rw [hl]; exact h⟩

/-- A change of what stands at one place makes no file unreadable if it makes none so there. -/
lemma hasUnreadable_of_alter {change : Option Node → Option Node} {location : Location}
    {node : Option Node}
    (h : ∀ rest, HasUnreadable (change (node.bind (·.find? location))) rest →
      HasUnreadable (node.bind (·.find? location)) rest) {other : Location}
    (ho : HasUnreadable (alter change location node) other) : HasUnreadable node other := by
  induction location generalizing node other with
  | nil =>
      have hself : node.bind (·.find? []) = node := by cases node <;> rfl
      rw [hself] at h
      exact h other ho
  | cons name location ih =>
      cases node with
      | none => exact ho
      | some node =>
          cases node with
          | file | link => exact ho
          | directory entries modified length =>
              obtain ⟨first, rest, rfl, hrest⟩ := hasUnreadable_directory_iff.mp ho
              refine hasUnreadable_directory_iff.mpr ⟨first, rest, rfl, ?_⟩
              rw [lookup_setEntry] at hrest
              split at hrest
              · next heq =>
                  subst heq
                  refine ih (fun more hmore => ?_) hrest
                  have hbelow : (some (directory entries modified length)).bind
                      (·.find? (first :: location)) =
                        (entries.lookup first).bind (·.find? location) := by
                    rw [Option.bind_some, find?, child?]
                    cases entries.lookup first <;> rfl
                  rw [hbelow] at h
                  exact h more hmore
              · exact hrest

end Node

open Node

namespace FileTree

/-- A file that cannot be read stands at a place. -/
def Unreadable (tree : FileTree) (location : Location) : Prop :=
  HasUnreadable (some tree.root) location

variable {tree tree' : FileTree} {location other directory : Location} {name : Bytes}
  {path : Path}

lemma unreadable_iff : tree.Unreadable location ↔
    ∃ contents modified, tree.node? location = some (.file contents modified false) :=
  Iff.rfl

/-- A change of one place keeps a tree, as far as its files can be read. -/
lemma unreadable_of_alter {change : Option Node → Option Node}
    (h : ∀ rest, HasUnreadable (change (tree.node? location)) rest →
      HasUnreadable (tree.node? location) rest)
    (ho : ({ tree with root := (alter change location tree.root).getD tree.root } :
      FileTree).Unreadable other) : tree.Unreadable other := by
  cases ha : alter change location (some tree.root) with
  | none =>
      rw [ha] at ho
      exact ho
  | some root =>
      rw [ha] at ho
      replace ho : HasUnreadable (alter change location (some tree.root)) other := ha ▸ ho
      exact hasUnreadable_of_alter h ho

lemma unreadable_of_put {node : Node}
    (h : ∀ rest, HasUnreadable (some node) rest → HasUnreadable (tree.node? location) rest)
    (ho : (tree.put location node).Unreadable other) : tree.Unreadable other :=
  unreadable_of_alter h ho

lemma unreadable_of_erase (ho : (tree.erase location).Unreadable other) : tree.Unreadable other :=
  unreadable_of_alter (fun _ hno => absurd hno (not_hasUnreadable_none _)) ho

lemma unreadable_of_noteChange (ho : (tree.noteChange directory).Unreadable other) :
    tree.Unreadable other := by
  rw [noteChange] at ho
  split at ho
  · next entries modified length hn =>
      refine unreadable_of_put (fun rest hrest => ?_) ho
      rw [hn]
      exact hasUnreadable_directory_iff.mpr (hasUnreadable_directory_iff.mp hrest)
  · exact ho

lemma unreadable_of_add {node : Node} (h : ∀ rest, ¬ HasUnreadable (some node) rest)
    (ho : (tree.add directory name node).Unreadable other) : tree.Unreadable other :=
  unreadable_of_put (fun rest hrest => absurd hrest (h rest)) (unreadable_of_noteChange ho)

/-! ### Changes -/

lemma unreadable_of_makeDirectory (h : tree.makeDirectory path = .ok tree')
    (ho : tree'.Unreadable other) : tree.Unreadable other := by
  obtain ⟨target, -, h⟩ := Except.bind_eq_ok_iff.mp h
  cases target with
  | present => cases h
  | vacant directory name =>
      obtain rfl := Except.ok.inj h
      refine unreadable_of_add (fun rest hrest => ?_) ho
      obtain ⟨_, _, -, hno⟩ := hasUnreadable_directory_iff.mp hrest
      exact not_hasUnreadable_none _ hno

lemma unreadable_of_makeFrom {backwards : Bytes}
    (ho : (tree.makeFrom path backwards).2.Unreadable other) : tree.Unreadable other := by
  fun_induction makeFrom tree path backwards with
  | case1 path backwards made h => exact unreadable_of_makeDirectory h ho
  | case2 | case6 => exact ho
  | case3 path backwards h hne above before hbefore made hmade ih =>
      rw [hbefore] at ih
      exact ih (unreadable_of_makeDirectory hmade ho)
  | case4 path backwards h hne above before hbefore e hmade ih =>
      rw [hbefore] at ih
      exact ih ho
  | case5 path backwards h hne above hfailed ih => exact ih ho

/-- A file that is overwritten stays as readable as it was. -/
lemma unreadable_of_put_file {old new : Bytes} {before after : Time} {readable : Bool}
    (h : tree.node? location = some (.file old before readable))
    (ho : (tree.put location (.file new after readable)).Unreadable other) :
    tree.Unreadable other := by
  refine unreadable_of_put (fun rest hrest => ?_) ho
  rw [h]
  exact hasUnreadable_file_iff.mpr (hasUnreadable_file_iff.mp hrest)

lemma unreadable_of_writeFile {contents : Bytes} {modified : Time}
    (h : tree.writeFile path contents modified = .ok tree') (ho : tree'.Unreadable other) :
    tree.Unreadable other := by
  obtain ⟨target, hl, h⟩ := Except.bind_eq_ok_iff.mp h
  cases target with
  | present location node =>
      cases node with
      | file old before readable =>
          obtain rfl := Except.ok.inj h
          exact unreadable_of_put_file (node?_of_lookup (by decide) hl) ho
      | directory | link => cases h
  | vacant directory name =>
      obtain rfl := Except.ok.inj h
      refine unreadable_of_add (fun rest hrest => ?_) ho
      cases (hasUnreadable_file_iff.mp hrest).2

lemma unreadable_of_setTime {modified : Time} (h : tree.setTime path modified = .ok tree')
    (ho : tree'.Unreadable other) : tree.Unreadable other := by
  obtain ⟨target, hl, h⟩ := Except.bind_eq_ok_iff.mp h
  cases target with
  | present location node =>
      cases node with
      | file contents before readable =>
          obtain rfl := Except.ok.inj h
          exact unreadable_of_put_file (node?_of_lookup (by decide) hl) ho
      | directory | link => cases h
  | vacant => cases h

lemma unreadable_of_unlink (h : tree.unlink path = .ok tree') (ho : tree'.Unreadable other) :
    tree.Unreadable other := by
  obtain ⟨target, -, h⟩ := Except.bind_eq_ok_iff.mp h
  cases target with
  | present location node =>
      cases node with
      | directory => cases h
      | file | link =>
          dsimp only at h
          split at h
          · cases h
          · obtain rfl := Except.ok.inj h
            exact unreadable_of_erase (unreadable_of_noteChange ho)
  | vacant => cases h

lemma unreadable_of_makeLink {target : Path} (h : tree.makeLink target path = .ok tree')
    (ho : tree'.Unreadable other) : tree.Unreadable other := by
  rw [makeLink] at h
  split at h
  · cases h
  obtain ⟨_, -, h⟩ := Except.bind_eq_ok_iff.mp h
  obtain ⟨found, -, h⟩ := Except.bind_eq_ok_iff.mp h
  cases found with
  | present => cases h
  | vacant directory name =>
      dsimp only at h
      split at h
      · cases h
      · obtain rfl := Except.ok.inj h
        exact unreadable_of_add (not_hasUnreadable_link target) ho

/-- A change that does not happen changes nothing. -/
lemma unreadable_of_changed {result : Except FileError FileTree}
    (h : ∀ tree', result = .ok tree' → tree'.Unreadable other → tree.Unreadable other)
    (ho : (tree.changed result).2.Unreadable other) : tree.Unreadable other := by
  cases result with
  | error e => exact ho
  | ok tree' => exact h tree' rfl ho

end FileTree

/-- **No change makes a file unreadable**: one that cannot be read after it could not be read at its
place before. -/
lemma FileStep.unreadable_of_apply {step : FileStep} {tree : FileTree} {location : Location}
    (h : (step.apply tree).2.Unreadable location) : tree.Unreadable location := by
  cases step with
  | write path contents modified =>
      rw [apply] at h
      split at h
      · next made hmade =>
          have hbefore : (tree.makeDirectories path.parent).2.Unreadable location := by
            rw [hmade]
            exact FileTree.unreadable_of_changed
              (fun tree' hw => FileTree.unreadable_of_writeFile hw) h
          exact FileTree.unreadable_of_makeFrom hbefore
      · exact FileTree.unreadable_of_makeFrom h
  | touch path modified =>
      exact FileTree.unreadable_of_changed (fun tree' hs => FileTree.unreadable_of_setTime hs) h
  | makeDirectories path => exact FileTree.unreadable_of_makeFrom h
  | remove path =>
      exact FileTree.unreadable_of_changed (fun tree' hu => FileTree.unreadable_of_unlink hu) h
  | link target path =>
      exact FileTree.unreadable_of_changed (fun tree' hl => FileTree.unreadable_of_makeLink hl) h

end DocImage
