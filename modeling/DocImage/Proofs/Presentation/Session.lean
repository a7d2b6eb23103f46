import DocImage.Proofs.Files.Readability
import DocImage.Proofs.Presentation.Rendered

/-!
Sessions on one cache. Changes of the files, questions for addresses and presentations follow each
other in any order, and the cache lives through all of them.

* `Session.next` is one step and `Session.run` a whole session; `next_cache` says that the cache
  changes in a step only as it does with one address.
* `Faithful` is the invariant: every address that is remembered is that of something that was at its
  place with its metadata. `unreadable_of_run` is another: a file that cannot be read never could.
* `answer_eq_answer_start`: where length and time tell apart all contents that one place ever has
  (`TellsApart`), the answers are those of an empty cache.
-/

namespace DocImage

/-- A step of a session. -/
inductive SessionStep where
  /-- The files are changed. -/
  | change (step : FileStep)
  /-- The address of the image at a path is asked for. -/
  | ask (path : Path) (threshold : Nat)
  /-- A comment is presented. -/
  | present (settings : Settings) (roots : List Path) (docs : Documentation)

/-- The files and the cache at one time of a session. -/
structure Session where
  tree : FileTree
  cache : AddressCache := {}

namespace Session

/-- A session at its start: nothing is remembered. -/
def start (tree : FileTree) : Session :=
  { tree }

/-- The answer to the question for the address of the image at a path. -/
def answer (s : Session) (path : Path) (threshold : Nat) : Except AddressError Text :=
  (s.cache.address s.tree path threshold).map Prod.fst

/-- A session after one more step. -/
def next (s : Session) : SessionStep → Session
  | .change step => { s with tree := (step.apply s.tree).2 }
  | .ask path threshold =>
    match s.cache.address s.tree path threshold with
    | .ok (_, cache) => { s with cache }
    | .error _ => s
  | .present settings roots docs =>
    match plan settings s.tree s.cache roots docs with
    | .ok (some plan) => { s with cache := plan.cache }
    | .ok none | .error _ => s

/-- A session after some more steps. -/
def run (s : Session) (steps : List SessionStep) : Session :=
  steps.foldl next s

@[simp] lemma run_nil (s : Session) : s.run [] = s := rfl

lemma run_append (s : Session) (steps more : List SessionStep) :
    s.run (steps ++ more) = (s.run steps).run more :=
  List.foldl_append

lemma run_snoc (s : Session) (steps : List SessionStep) (step : SessionStep) :
    s.run (steps ++ [step]) = (s.run steps).next step :=
  s.run_append steps [step]

/-- Only changes of the files change them. -/
lemma next_tree (s : Session) (step : SessionStep) :
    (s.next step).tree = match step with
      | .change step => (step.apply s.tree).2
      | .ask .. | .present .. => s.tree := by
  cases step with
  | change step => rfl
  | ask path threshold =>
      rw [next]
      split <;> rfl
  | present settings roots docs =>
      rw [next]
      split <;> rfl

/-- A file that cannot be read at some time of a session could not be read before. -/
lemma unreadable_of_run {s : Session} {steps : List SessionStep} {location : Location}
    (h : (s.run steps).tree.Unreadable location) : s.tree.Unreadable location := by
  induction steps using List.reverseRecOn with
  | nil => exact h
  | append_singleton steps step ih =>
      rw [run_snoc, next_tree] at h
      cases step with
      | change step => exact ih (FileStep.unreadable_of_apply h)
      | ask | present => exact ih h

/-- The cache changes in a step only as it does with one address. -/
lemma next_cache (s : Session) (step : SessionStep) :
    (s.next step).cache = s.cache ∨ ∃ path threshold uri,
      s.cache.address s.tree path threshold = .ok (uri, (s.next step).cache) := by
  cases step with
  | change step => exact .inl rfl
  | ask path threshold =>
      rw [next]
      cases h : s.cache.address s.tree path threshold with
      | error e => exact .inl rfl
      | ok answer => exact .inr ⟨path, threshold, answer.1, h⟩
  | present settings roots docs =>
      rw [next]
      split
      · next p hp =>
          obtain h | ⟨path, uri, h⟩ := cache_of_plan hp
          · exact .inl h
          · exact .inr ⟨path, _, uri, h⟩
      · exact .inl rfl
      · exact .inl rfl

/-! ### What is remembered -/

/-- At some time of a session a path leads to something at a place. -/
def Occurs (tree : FileTree) (steps : List SessionStep) (location : Location) (node : Node) :
    Prop :=
  ∃ done path, done <+: steps ∧
    ((start tree).run done).tree.canonicalize path = .ok (location, node)

lemma Occurs.mono {tree : FileTree} {steps more : List SessionStep} {location : Location}
    {node : Node} (h : Occurs tree steps location node) (hp : steps <+: more) :
    Occurs tree more location node := by
  obtain ⟨done, path, hd, hc⟩ := h
  exact ⟨done, path, hd.trans hp, hc⟩

/-- Every address that is remembered is that of something that was at its place with its metadata.
-/
def Faithful (tree : FileTree) (steps : List SessionStep) (cache : AddressCache) : Prop :=
  ∀ key uri, cache.get? key = some uri → ∃ node, Occurs tree steps key.location node ∧
    node.metadata = key.metadata ∧ newAddress key.location node key.threshold = .ok uri

variable {tree : FileTree} {steps : List SessionStep}

/-- An answer keeps the invariant. -/
lemma Faithful.address {cache cache' : AddressCache} (h : Faithful tree steps cache)
    {path : Path} {threshold : Nat} {uri : Text}
    (ha : cache.address ((start tree).run steps).tree path threshold = .ok (uri, cache')) :
    Faithful tree steps cache' := by
  obtain ⟨location, node, hp, ⟨-, rfl⟩ | ⟨-, hn, rfl⟩⟩ := AddressCache.address_still_eq_ok_iff.mp ha
  · exact h
  · intro key uri' hk
    rw [AddressCache.get?_insert] at hk
    split at hk
    · next he =>
        obtain rfl := Option.some.inj hk
        subst he
        exact ⟨node, ⟨steps, path, List.prefix_refl steps, hp⟩, rfl, hn⟩
    · exact h key uri' hk

/-- The invariant holds throughout a session. -/
lemma faithful_run (tree : FileTree) (steps : List SessionStep) :
    Faithful tree steps ((start tree).run steps).cache := by
  induction steps using List.reverseRecOn with
  | nil =>
      intro key uri hk
      cases hk
  | append_singleton steps step ih =>
      have hstep : Faithful tree steps ((start tree).run (steps ++ [step])).cache := by
        rw [run_snoc]
        obtain h | ⟨path, threshold, uri, h⟩ := next_cache ((start tree).run steps) step
        · rwa [h]
        · exact ih.address h
      intro key uri hk
      obtain ⟨node, ho, hm, hn⟩ := hstep key uri hk
      exact ⟨node, ho.mono (List.prefix_append steps [step]), hm, hn⟩

/-! ### Answers -/

/-- No place ever has two contents with the same length and time in a session, whether they can be
read or not; all directories have the same contents, and no file has those. -/
def TellsApart (tree : FileTree) (steps : List SessionStep) : Prop :=
  ∀ location node node', Occurs tree steps location node → Occurs tree steps location node' →
    node.metadata = node'.metadata → node.bytes? = node'.bytes?

lemma answer_of_canonicalize_error {s : Session} {path : Path} {e : FileError}
    (hp : s.tree.canonicalize path = .error e) (threshold : Nat) :
    s.answer path threshold = .error (.file e) := by
  rw [answer, AddressCache.address_still_of_error hp]
  rfl

lemma answer_of_get?_eq_none {s : Session} {path : Path} {threshold : Nat} {location : Location}
    {node : Node} (hp : s.tree.canonicalize path = .ok (location, node))
    (hk : s.cache.get? (.of location node threshold) = none) :
    s.answer path threshold = newAddress location node threshold := by
  rw [answer, AddressCache.address_still_of_get?_eq_none hp hk]
  cases newAddress location node threshold <;> rfl

/-- What could be read at a place can be read as long as it is a file. -/
lemma isReadable_of_canonicalize {s : Session} {steps : List SessionStep} {path path' : Path}
    {location : Location} {node node' : Node}
    (hp : s.tree.canonicalize path = .ok (location, node))
    (hp' : (s.run steps).tree.canonicalize path' = .ok (location, node'))
    (hr : node.isReadable = true) : node'.isReadable = true := by
  cases node' with
  | directory | link => rfl
  | file contents modified readable =>
      cases readable with
      | true => rfl
      | false =>
          obtain ⟨old, before, hold⟩ := unreadable_of_run (FileTree.unreadable_iff.mpr
            ⟨contents, modified, FileTree.node?_of_canonicalize hp'⟩)
          obtain rfl := Option.some.inj ((FileTree.node?_of_canonicalize hp).symm.trans hold)
          cases hr

/-- The answer for what is at a place is the address that it would have anew. -/
lemma answer_eq_newAddress (h : TellsApart tree steps) {done : List SessionStep}
    (hd : done <+: steps) {path : Path} {location : Location} {node : Node}
    (hp : ((start tree).run done).tree.canonicalize path = .ok (location, node)) (threshold : Nat) :
    ((start tree).run done).answer path threshold = newAddress location node threshold := by
  cases hk : ((start tree).run done).cache.get? (.of location node threshold) with
  | none => exact answer_of_get?_eq_none hp hk
  | some uri =>
      obtain ⟨node', ho, hm, hn⟩ := faithful_run tree done _ _ hk
      have hb : node'.bytes? = node.bytes? :=
        h location node' node (ho.mono hd) ⟨done, path, hd, hp⟩ hm
      have hr : node'.isReadable = true → node.isReadable = true := by
        obtain ⟨before, path', ⟨more, rfl⟩, hp'⟩ := ho
        rw [run_append] at hp
        exact isReadable_of_canonicalize hp' hp
      rw [answer, AddressCache.address_still_of_get?_eq_some hp hk,
        newAddress_of_isReadable hm hb hr hn]
      rfl

/-- **A cache is transparent** where length and time tell apart all contents that one place ever
has. Every question of a session is answered as by an empty cache: with the failure to find the
file, or with the address that the file now has. Paths that lead to the same place, at whatever
times of the session, get the same address as long as length and time are the same, if they get one
at all, and they get the same answer if the place can be read at both times or at none. -/
theorem answer_eq_answer_start (tree : FileTree) (steps : List SessionStep)
    (h : TellsApart tree steps) :
    ∀ done path threshold, done ++ [.ask path threshold] <+: steps →
      ((start tree).run done).answer path threshold =
          (start ((start tree).run done).tree).answer path threshold ∧
        (∀ e, ((start tree).run done).tree.canonicalize path = .error e →
          ((start tree).run done).answer path threshold = .error (.file e)) ∧
        ∀ location node, ((start tree).run done).tree.canonicalize path = .ok (location, node) →
          ((start tree).run done).answer path threshold = newAddress location node threshold ∧
          ∀ done' path' node', done' ++ [.ask path' threshold] <+: steps →
            ((start tree).run done').tree.canonicalize path' = .ok (location, node') →
            node'.metadata = node.metadata →
            (∀ uri uri', ((start tree).run done).answer path threshold = .ok uri →
              ((start tree).run done').answer path' threshold = .ok uri' → uri' = uri) ∧
            (node'.isReadable = node.isReadable →
              ((start tree).run done').answer path' threshold =
                ((start tree).run done).answer path threshold) := by
  intro done path threshold hd
  replace hd : done <+: steps := (List.prefix_append done _).trans hd
  refine ⟨?_, fun e he => answer_of_canonicalize_error he threshold, fun location node hp => ?_⟩
  · cases hp : ((start tree).run done).tree.canonicalize path with
    | error e =>
        rw [answer_of_canonicalize_error hp threshold]
        exact (answer_of_canonicalize_error (s := start _) hp threshold).symm
    | ok found =>
        rw [answer_eq_newAddress h hd hp threshold]
        exact (answer_of_get?_eq_none (s := start _) hp rfl).symm
  · have ha := answer_eq_newAddress h hd hp threshold
    refine ⟨ha, fun done' path' node' hd' hp' hm => ?_⟩
    replace hd' : done' <+: steps := (List.prefix_append done' _).trans hd'
    have ha' := answer_eq_newAddress h hd' hp' threshold
    have hb : node'.bytes? = node.bytes? :=
      h location node' node ⟨done', path', hd', hp'⟩ ⟨done, path, hd, hp⟩ hm
    refine ⟨fun uri uri' hu hu' => ?_, fun hr => ?_⟩
    · exact newAddress_unique hm.symm hb.symm (ha.symm.trans hu) (ha'.symm.trans hu')
    · calc ((start tree).run done').answer path' threshold
          = newAddress location node' threshold := ha'
        _ = newAddress location node threshold := newAddress_congr hm hb hr
        _ = ((start tree).run done).answer path threshold := ha.symm

/-- A tree with one file below its root. -/
def oneFile (contents : Bytes) (modified : Time) : FileTree :=
  { root := .directory [([0x61], .file contents modified)] .epoch }

/-- The questions before and after the file is overwritten by a longer one. -/
def overwriting : List SessionStep :=
  [.ask [Path.slash, 0x61] 9, .change (.write [Path.slash, 0x61] [2, 3] ⟨5⟩),
    .ask [Path.slash, 0x61] 9]

lemma eq_of_node?_oneFile {contents : Bytes} {modified : Time} {location : Location} {node : Node}
    (h : (oneFile contents modified).node? location = some node) :
    location = [] ∧ node.bytes? = none ∨
      location = [[0x61]] ∧ node = .file contents modified := by
  cases location with
  | nil =>
      obtain rfl := Option.some.inj h
      exact .inl ⟨rfl, rfl⟩
  | cons name location =>
      rw [FileTree.node?, oneFile, Node.find?, Node.child?, List.lookup_cons] at h
      by_cases hn : name = [0x61]
      · subst hn
        cases location with
        | nil =>
            obtain rfl := Option.some.inj h
            exact .inr ⟨rfl, rfl⟩
        | cons name location => cases h
      · rw [beq_false_of_ne hn] at h
        cases h

lemma apply_write_oneFile (old new : Bytes) (before after : Time) :
    ((FileStep.write [Path.slash, 0x61] new after).apply (oneFile old before)).2 =
      oneFile new after := by
  cbv

lemma canonicalize_oneFile (contents : Bytes) (modified : Time) :
    (oneFile contents modified).canonicalize [Path.slash, 0x61] =
      .ok ([[0x61]], .file contents modified) := by
  cbv

lemma tellsApart_overwriting : TellsApart (oneFile [1] .epoch) overwriting := by
  have hocc : ∀ location node, Occurs (oneFile [1] .epoch) overwriting location node →
      location = [] ∧ node.bytes? = none ∨
        location = [[0x61]] ∧ (node = .file [1] .epoch ∨ node = .file [2, 3] ⟨5⟩) := by
    rintro location node ⟨done, path, hd, hc⟩
    have hn := FileTree.node?_of_canonicalize hc
    have htree : ((start (oneFile [1] .epoch)).run done).tree = oneFile [1] .epoch ∨
        ((start (oneFile [1] .epoch)).run done).tree = oneFile [2, 3] ⟨5⟩ := by
      simp only [overwriting, List.prefix_cons_iff, List.prefix_nil] at hd
      obtain rfl | ⟨_, rfl, rfl | ⟨_, rfl, rfl | ⟨_, rfl, rfl⟩⟩⟩ := hd <;>
        simp [run, next_tree, start, apply_write_oneFile]
    rcases htree with ht | ht <;> rw [ht] at hn
    · exact (eq_of_node?_oneFile hn).imp id (And.imp id .inl)
    · exact (eq_of_node?_oneFile hn).imp id (And.imp id .inr)
  intro location node node' h h' hm
  rcases hocc _ _ h with ⟨rfl, hc⟩ | ⟨rfl, hc⟩
  · rcases hocc _ _ h' with ⟨-, hc'⟩ | ⟨hl, -⟩
    · rw [hc, hc']
    · cases hl
  · rcases hocc _ _ h' with ⟨hl, -⟩ | ⟨-, hc'⟩
    · cases hl
    · rcases hc with rfl | rfl <;> rcases hc' with rfl | rfl
      · rfl
      · cases hm
      · cases hm
      · rfl

/-- The second answer holds the new contents. -/
theorem answer_eq_answer_start_overwriting :
    TellsApart (oneFile [1] .epoch) overwriting ∧
      ((start (oneFile [1] .epoch)).run (overwriting.take 2)).answer [Path.slash, 0x61] 9 =
        .ok (dataUri (.ofPath [Path.slash, 0x61]) [2, 3]) := by
  refine ⟨tellsApart_overwriting, ?_⟩
  obtain ⟨-, -, h⟩ := answer_eq_answer_start _ _ tellsApart_overwriting (overwriting.take 2) _ 9
    List.prefix_rfl
  have ht : ((start (oneFile [1] .epoch)).run (overwriting.take 2)).tree = oneFile [2, 3] ⟨5⟩ := by
    simp [overwriting, run, next_tree, start, apply_write_oneFile]
  refine (h [[0x61]] (.file [2, 3] ⟨5⟩) ?_).1
  rw [ht, canonicalize_oneFile]

end Session

end DocImage
