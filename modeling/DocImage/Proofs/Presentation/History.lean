import DocImage.Files.Error
import DocImage.Proofs.Files.Names
import DocImage.Proofs.Presentation.Session

/-!
The history of a session in its cache. `Session.question?` is the address that a step asks for, and
`successes` lists the addresses that the steps of a session get, in their order, each under the key
of what the path leads to at that time.

* `next_cache_of_question?`: a step changes the cache as the question for that address does, whether
  it is asked directly or for a presentation (`plan_of_question?`).
* `Records` is the invariant: the cache holds the first success under every key, nothing else, and
  nothing twice; `records_run` says that it holds throughout a session.
* `remembers_first_success`: the whole history. An entry stays as it is, a success gets what the
  first success under its key has got and leaves an entry exactly if there was none, and a failure
  is one of the files and leaves nothing.
-/

namespace DocImage

/-- The image that is asked for is drawn from the first file for it, if that has an address. -/
lemma blockOf?_of_firstFile {settings : Settings} {files : Accesses} {roots : List Path}
    {asked : ImageTag} {path : Path} (cache : AddressCache)
    (h : FirstFile files roots asked.src path) :
    blockOf? settings files cache roots (some asked) =
      (cache.address files path settings.inlineThreshold).toOption.map fun found =>
        (imageBlock found.1 (settings.drawnSize files path asked.bounds), found.2) := by
  simp only [blockOf?, Option.bind_eq_bind, Option.bind_some, locate?_eq_some_iff.mpr h, blockFor]
  cases cache.address files path settings.inlineThreshold <;> rfl

namespace Session

/-! ### What a step asks for -/

/-- The address that a step asks for, if it asks for one: the path of the image and the threshold.
-/
def question? (s : Session) : SessionStep → Option (Path × Nat)
  | .change _ => none
  | .ask path threshold => some (path, threshold)
  | .present settings roots docs => do
    let comment ← docs.first?
    let e ← (extract comment).toOption
    let asked ← e.tag
    let path ← locate? s.tree roots asked.src
    return (path, settings.inlineThreshold)

/-- The address that a step gets, under the key of what the path leads to. -/
def success? (s : Session) (step : SessionStep) : Option (AddressKey × Text) := do
  let (path, threshold) ← s.question? step
  let (location, node) ← (s.tree.canonicalize path).toOption
  let uri ← (s.answer path threshold).toOption
  return (.of location node threshold, uri)

/-- The addresses that some steps get, in their order. -/
def successes (s : Session) : List SessionStep → List (AddressKey × Text)
  | [] => []
  | step :: steps => (s.success? step).toList ++ (s.next step).successes steps

variable {s : Session} {step : SessionStep} {path : Path} {threshold : Nat} {location : Location}
  {node : Node} {uri : Text}

lemma successes_snoc (s : Session) (steps : List SessionStep) (step : SessionStep) :
    s.successes (steps ++ [step]) = s.successes steps ++ ((s.run steps).success? step).toList := by
  induction steps generalizing s with
  | nil => simp [successes]
  | cons first steps ih =>
      rw [List.cons_append, successes, successes, ih, List.append_assoc]
      rfl

lemma answer_eq_ok_iff :
    s.answer path threshold = .ok uri ↔
      ∃ cache, s.cache.address s.tree path threshold = .ok (uri, cache) := by
  rw [answer, Except.map_eq_ok_iff]
  constructor
  · rintro ⟨⟨_, cache⟩, h, rfl⟩
    exact ⟨cache, h⟩
  · rintro ⟨cache, h⟩
    exact ⟨_, h, rfl⟩

lemma answer_eq_error_iff {e : AddressError} :
    s.answer path threshold = .error e ↔ s.cache.address s.tree path threshold = .error e := by
  rw [answer]
  cases s.cache.address s.tree path threshold <;> simp [Except.map]

/-- A step that is answered has the key of what its path leads to. -/
lemma success?_of_answer (hq : s.question? step = some (path, threshold))
    (hp : s.tree.canonicalize path = .ok (location, node))
    (ha : s.answer path threshold = .ok uri) :
    s.success? step = some (.of location node threshold, uri) := by
  simp [success?, hq, hp, ha, Except.toOption]

lemma success?_of_answer_error {e : AddressError} (hq : s.question? step = some (path, threshold))
    (ha : s.answer path threshold = .error e) : s.success? step = none := by
  simp [success?, hq, ha, Except.toOption]

section Presenting

variable {settings : Settings} {roots : List Path} {docs : Documentation}

/-- A presentation asks for the address of the first file for the image of its comment. -/
lemma question?_present_eq_some_iff :
    s.question? (.present settings roots docs) = some (path, threshold) ↔
      ∃ comment e asked, docs.first? = some comment ∧ extract comment = .ok e ∧
        e.tag = some asked ∧ FirstFile s.tree roots asked.src path ∧
        threshold = settings.inlineThreshold := by
  simp only [question?, Option.bind_eq_bind, Option.bind_eq_some_iff, Option.pure_def,
    Except.toOption_eq_some_iff, Option.some.injEq, Prod.mk.injEq, locate?_eq_some_iff]
  constructor
  · rintro ⟨comment, hd, e, he, asked, ht, found, hl, rfl, rfl⟩
    exact ⟨comment, e, asked, hd, he, ht, hl, rfl⟩
  · rintro ⟨comment, e, asked, hd, he, ht, hl, rfl⟩
    exact ⟨comment, hd, e, he, asked, ht, path, hl, rfl, rfl⟩

/-- What is presented holds the answer, drawn as an image, and remembers as much as the answer
does. -/
lemma plan_of_question?
    (hq : s.question? (.present settings roots docs) = some (path, threshold)) :
    ∃ fragment bounds, plan settings s.tree s.cache roots docs = .ok (some ⟨fragment,
      (s.answer path threshold).toOption.map (imageBlock · (settings.drawnSize s.tree path bounds)),
      ((s.cache.address s.tree path threshold).toOption.map Prod.snd).getD s.cache⟩) := by
  obtain ⟨comment, e, asked, hd, he, ht, hf, rfl⟩ := question?_present_eq_some_iff.mp hq
  refine ⟨e.sanitized, asked.bounds, ?_⟩
  rw [plan_eq hd he, ht, blockOf?_of_firstFile s.cache hf, answer]
  cases s.cache.address s.tree path settings.inlineThreshold <;> rfl

/-- Without a question there is no image. -/
lemma blockOf?_of_question?_eq_none {comment : Text} {e : Extraction}
    (hd : docs.first? = some comment) (he : extract comment = .ok e)
    (hq : s.question? (.present settings roots docs) = none) :
    blockOf? settings s.tree s.cache roots e.tag = none := by
  rw [Option.eq_none_iff_forall_ne_some]
  rintro ⟨block, cache'⟩ hb
  obtain ⟨asked, path, uri, ht, hf, -⟩ := blockOf?_eq_some_iff.mp hb
  rw [question?_present_eq_some_iff.mpr ⟨comment, e, asked, hd, he, ht, hf, rfl⟩] at hq
  cases hq

end Presenting

/-- A step that asks for no address leaves the cache as it is. -/
lemma next_cache_of_question?_eq_none (hq : s.question? step = none) :
    (s.next step).cache = s.cache := by
  cases step with
  | change step => rfl
  | ask path threshold => cases hq
  | present settings roots docs =>
      cases hd : docs.first? with
      | none => rw [next, plan, hd]
      | some comment =>
          cases he : extract comment with
          | error error =>
              rw [next, plan, hd]
              simp only [he, Except.map]
          | ok e =>
              rw [next, plan_eq hd he, blockOf?_of_question?_eq_none hd he hq]
              rfl

/-- A step changes the cache as the question for the address does that it asks for. -/
lemma next_cache_of_question? (hq : s.question? step = some (path, threshold)) :
    (s.next step).cache =
      ((s.cache.address s.tree path threshold).toOption.map Prod.snd).getD s.cache := by
  cases step with
  | change step => cases hq
  | ask path' threshold' =>
      obtain ⟨rfl, rfl⟩ := Prod.mk.inj (Option.some.inj hq)
      rw [next]
      cases s.cache.address s.tree path' threshold' <;> rfl
  | present settings roots docs =>
      obtain ⟨fragment, bounds, hp⟩ := plan_of_question? hq
      rw [next, hp]

/-- What a step remembers stays remembered. -/
lemma gains_next (s : Session) (step : SessionStep) : s.cache.Gains (s.next step).cache := by
  obtain h | ⟨path, threshold, uri, h⟩ := next_cache s step
  · exact .inl h
  · exact AddressCache.gains_of_address h

/-- What is remembered stays remembered. -/
lemma get?_run {key : AddressKey} (h : s.cache.get? key = some uri) (more : List SessionStep) :
    (s.run more).cache.get? key = some uri := by
  induction more using List.reverseRecOn with
  | nil => exact h
  | append_singleton more step ih =>
      rw [run_snoc]
      exact (gains_next _ step).get? ih

/-! ### The history -/

/-- A session after some steps from its start. -/
def after (tree : FileTree) (steps : List SessionStep) : Session :=
  (start tree).run steps

lemma after_snoc (tree : FileTree) (steps : List SessionStep) (step : SessionStep) :
    after tree (steps ++ [step]) = (after tree steps).next step :=
  run_snoc _ _ _

lemma after_append (tree : FileTree) (steps more : List SessionStep) :
    after tree (steps ++ more) = (after tree steps).run more :=
  run_append _ _ _

/-- The keys of the successes of a session, in their order. -/
def keys (tree : FileTree) (steps : List SessionStep) : List AddressKey :=
  ((start tree).successes steps).map Prod.fst

/-- An address is what the first success of a session under its key has got: the address, made at
that time, of what stood at the place then. -/
def IsFirst (tree : FileTree) (steps : List SessionStep) (key : AddressKey) (uri : Text) : Prop :=
  ∃ done step node, done ++ [step] <+: steps ∧ key ∉ keys tree done ∧
    (after tree done).success? step = some (key, uri) ∧
    (after tree done).tree.node? key.location = some node ∧ node.metadata = key.metadata ∧
    newAddress key.location node key.threshold = .ok uri

lemma IsFirst.mono {tree : FileTree} {steps more : List SessionStep} {key : AddressKey}
    (h : IsFirst tree steps key uri) (hp : steps <+: more) : IsFirst tree more key uri := by
  obtain ⟨done, step, node, hd, h⟩ := h
  exact ⟨done, step, node, hd.trans hp, h⟩

/-- The cache holds the first success under every key, nothing else, and nothing twice. -/
structure Records (tree : FileTree) (steps : List SessionStep) (cache : AddressCache) : Prop where
  get?_eq : ∀ key, cache.get? key = ((start tree).successes steps).lookup key
  isFirst : ∀ key uri, cache.get? key = some uri → IsFirst tree steps key uri
  nodup : (cache.entries.map Prod.fst).Nodup

section Records

variable {tree : FileTree} {steps : List SessionStep} {cache cache' : AddressCache}

lemma lookup_eq_none_iff_notMem {entries : List (AddressKey × Text)} {key : AddressKey} :
    entries.lookup key = none ↔ key ∉ entries.map Prod.fst := by
  rw [List.lookup_eq_none_iff, List.mem_map]
  constructor
  · rintro hn ⟨_, hm, rfl⟩
    simpa using hn _ hm
  · intro hn found hm
    exact bne_iff_ne.mpr fun he => hn ⟨found, hm, he.symm⟩

lemma Records.get?_eq_none_iff (h : Records tree steps cache) {key : AddressKey} :
    cache.get? key = none ↔ key ∉ keys tree steps := by
  rw [h.get?_eq, lookup_eq_none_iff_notMem, keys]

/-- There are as many entries as there are different keys. -/
lemma Records.size_eq (h : Records tree steps cache) :
    cache.size = (keys tree steps).dedup.length := by
  have hmem : ∀ key, key ∈ cache.entries.map Prod.fst ↔ key ∈ (keys tree steps).dedup := by
    intro key
    rw [List.mem_dedup, ← not_iff_not, ← h.get?_eq_none_iff, AddressCache.get?,
      lookup_eq_none_iff_notMem]
  have hp := (List.perm_ext_iff_of_nodup h.nodup (List.nodup_dedup _)).mpr hmem
  rw [← hp.length_eq, List.length_map, AddressCache.size]

section Step

variable {key : AddressKey}

/-- A step that gets nothing leaves the cache in order. -/
lemma Records.silent (h : Records tree steps cache)
    (hs : (after tree steps).success? step = none) : Records tree (steps ++ [step]) cache where
  get?_eq key := by
    rw [successes_snoc, ← after, hs, Option.toList_none, List.append_nil, h.get?_eq]
  isFirst key uri hk := (h.isFirst key uri hk).mono (List.prefix_append steps [step])
  nodup := h.nodup

/-- So does one that gets what is remembered. -/
lemma Records.known (h : Records tree steps cache)
    (hs : (after tree steps).success? step = some (key, uri))
    (hk : cache.get? key = some uri) : Records tree (steps ++ [step]) cache where
  get?_eq other := by
    rw [successes_snoc, ← after, hs, Option.toList_some, List.lookup_append, ← h.get?_eq,
      List.lookup_cons]
    by_cases he : other = key
    · rw [he, hk, Option.some_or]
    · rw [beq_false_of_ne he, List.lookup_nil, Option.or_none]
  isFirst key uri hk := (h.isFirst key uri hk).mono (List.prefix_append steps [step])
  nodup := h.nodup

/-- One that gets a new address leaves it in the cache. -/
lemma Records.new {node : Node} (h : Records tree steps cache)
    (hs : (after tree steps).success? step = some (key, uri)) (hk : cache.get? key = none)
    (hf : (after tree steps).tree.node? key.location = some node)
    (hm : node.metadata = key.metadata)
    (hn : newAddress key.location node key.threshold = .ok uri) :
    Records tree (steps ++ [step]) (cache.insert key uri) where
  get?_eq other := by
    rw [successes_snoc, ← after, hs, Option.toList_some, List.lookup_append, ← h.get?_eq,
      List.lookup_cons, AddressCache.get?_insert]
    by_cases he : other = key
    · rw [he, hk, if_pos rfl, Option.none_or, beq_self_eq_true]
    · rw [if_neg he, beq_false_of_ne he, List.lookup_nil, Option.or_none]
  isFirst other uri' ho := by
    rw [AddressCache.get?_insert] at ho
    split at ho
    · next he =>
        obtain rfl := Option.some.inj ho
        rw [he]
        exact ⟨steps, step, node, List.prefix_rfl, h.get?_eq_none_iff.mp hk, hs, hf, hm, hn⟩
    · exact (h.isFirst other uri' ho).mono (List.prefix_append steps [step])
  nodup := List.nodup_cons.mpr ⟨lookup_eq_none_iff_notMem.mp hk, h.nodup⟩

end Step

/-- The invariant holds throughout a session. -/
lemma records_run (tree : FileTree) (steps : List SessionStep) :
    Records tree steps (after tree steps).cache := by
  induction steps using List.reverseRecOn with
  | nil => exact ⟨fun _ => rfl, nofun, List.nodup_nil⟩
  | append_singleton steps step ih =>
      rw [after_snoc]
      cases hq : (after tree steps).question? step with
      | none =>
          rw [next_cache_of_question?_eq_none hq]
          exact ih.silent (by rw [success?, hq]; rfl)
      | some question =>
          obtain ⟨path, threshold⟩ := question
          rw [next_cache_of_question? hq]
          cases ha : (after tree steps).cache.address (after tree steps).tree path
              threshold with
          | error e => exact ih.silent (success?_of_answer_error hq (answer_eq_error_iff.mpr ha))
          | ok found =>
              obtain ⟨uri, cache'⟩ := found
              obtain ⟨location, node, hp, h⟩ := AddressCache.address_still_eq_ok_iff.mp ha
              have hs := success?_of_answer hq hp (answer_eq_ok_iff.mpr ⟨_, ha⟩)
              obtain ⟨hk, rfl⟩ | ⟨hk, hn, rfl⟩ := h
              · exact ih.known hs hk
              · exact ih.new hs hk (FileTree.node?_of_canonicalize hp) rfl hn

end Records

/-- **A cache remembers the first success under every key.** At any time of a session there are as
many entries as different keys of successes, each entry is what the first success under its key has
got, and it stays whatever follows. A step that asks for no address leaves the cache as it is. A
step that asks for one and fails does so too, and fails because of the files. A step that succeeds
gets what is remembered from then on under the key of what its path leads to; it adds that entry if
no success had the key before, and nothing otherwise. A presentation shows what it gets. -/
theorem remembers_first_success (tree : FileTree) (steps : List SessionStep) :
    (after tree steps).cache.size = (keys tree steps).dedup.length ∧
      (∀ key uri, (after tree steps).cache.get? key = some uri →
        IsFirst tree steps key uri ∧
        ∀ more, (after tree (steps ++ more)).cache.get? key = some uri) ∧
      (∀ step, (after tree steps).question? step = none →
        (after tree (steps ++ [step])).cache = (after tree steps).cache) ∧
      ∀ step path threshold, (after tree steps).question? step = some (path, threshold) →
        (∀ e, (after tree steps).answer path threshold = .error e →
          (∃ cause, e = .file cause) ∧
          (after tree (steps ++ [step])).cache = (after tree steps).cache) ∧
        (∀ uri, (after tree steps).answer path threshold = .ok uri →
          ∃ location node, (after tree steps).tree.canonicalize path = .ok (location, node) ∧
            (after tree (steps ++ [step])).cache.get? (.of location node threshold) = some uri ∧
            IsFirst tree (steps ++ [step]) (.of location node threshold) uri ∧
            (after tree (steps ++ [step])).cache =
              if .of location node threshold ∈ keys tree steps then (after tree steps).cache
              else (after tree steps).cache.insert (.of location node threshold) uri) ∧
        ∀ settings roots docs, step = .present settings roots docs → ∃ fragment bounds,
          plan settings (after tree steps).tree (after tree steps).cache roots docs =
            .ok (some ⟨fragment, ((after tree steps).answer path threshold).toOption.map
              (imageBlock · (settings.drawnSize (after tree steps).tree path bounds)),
              (after tree (steps ++ [step])).cache⟩) := by
  have hr := records_run tree steps
  refine ⟨hr.size_eq, fun key uri hk => ⟨hr.isFirst key uri hk, fun more => ?_⟩, fun step hq => ?_,
    fun step path threshold hq => ⟨fun e he => ?_, fun uri hu => ?_, ?_⟩⟩
  · rw [after_append]
    exact get?_run hk more
  · rw [after_snoc, next_cache_of_question?_eq_none hq]
  · have ha := answer_eq_error_iff.mp he
    obtain ⟨cause, hcause, -⟩ := AddressCache.address_eq_error_iff.mp ha
    refine ⟨⟨cause, hcause⟩, ?_⟩
    rw [after_snoc, next_cache_of_question? hq, ha]
    rfl
  · obtain ⟨cache', ha⟩ := answer_eq_ok_iff.mp hu
    have hnext : (after tree (steps ++ [step])).cache = cache' := by
      rw [after_snoc, next_cache_of_question? hq, ha]
      rfl
    obtain ⟨location, node, hp, h⟩ := AddressCache.address_still_eq_ok_iff.mp ha
    have hget : (after tree (steps ++ [step])).cache.get? (.of location node threshold) =
        some uri := by
      obtain ⟨hk, rfl⟩ | ⟨-, -, rfl⟩ := h
      · rw [hnext, hk]
      · rw [hnext, AddressCache.get?_insert, if_pos rfl]
    refine ⟨location, node, hp, hget, (records_run tree _).isFirst _ _ hget, ?_⟩
    obtain ⟨hk, rfl⟩ | ⟨hk, -, rfl⟩ := h
    · rw [hnext, if_pos]
      by_contra hn
      rw [hr.get?_eq_none_iff.mpr hn] at hk
      cases hk
    · rw [hnext, if_neg (hr.get?_eq_none_iff.mp hk)]
  · rintro settings roots docs rfl
    rw [after_snoc, next_cache_of_question? hq]
    exact plan_of_question? hq

/-- A file is asked for and then overwritten by one of the same length and time. -/
def rewriting : List SessionStep :=
  [.ask [Path.slash, 0x61] 9, .change (.write [Path.slash, 0x61] [2] .epoch)]

/-- The answer after that still holds the old contents. -/
theorem remembers_first_success_rewriting :
    (after (oneFile [1] .epoch) rewriting).tree = oneFile [2] .epoch ∧
      (after (oneFile [1] .epoch) rewriting).answer [Path.slash, 0x61] 9 =
        .ok (dataUri (.ofPath [Path.slash, 0x61]) [1]) := by
  have ht : (after (oneFile [1] .epoch) rewriting).tree = oneFile [2] .epoch := by
    simp [rewriting, after, run, next_tree, start, apply_write_oneFile]
  have hfirst : (after (oneFile [1] .epoch) []).answer [Path.slash, 0x61] 9 =
      .ok (dataUri (.ofPath [Path.slash, 0x61]) [1]) :=
    answer_of_get?_eq_none (s := start _) (canonicalize_oneFile [1] .epoch) rfl
  obtain ⟨-, -, -, hask⟩ := remembers_first_success (oneFile [1] .epoch) []
  obtain ⟨location, node, hp, hget, -⟩ := (hask (.ask [Path.slash, 0x61] 9) _ 9 rfl).2.1 _ hfirst
  obtain ⟨rfl, rfl⟩ := Prod.mk.inj (Except.ok.inj (hp.symm.trans (canonicalize_oneFile [1] .epoch)))
  obtain ⟨-, hkeep, -⟩ := remembers_first_success (oneFile [1] .epoch) [.ask [Path.slash, 0x61] 9]
  have hold := (hkeep _ _ hget).2 [.change (.write [Path.slash, 0x61] [2] .epoch)]
  have hnow : (after (oneFile [1] .epoch) rewriting).tree.canonicalize [Path.slash, 0x61] =
      .ok ([[0x61]], .file [2] .epoch) := by
    rw [ht, canonicalize_oneFile]
  exact ⟨ht, answer_eq_ok_iff.mpr ⟨_, AddressCache.address_still_of_get?_eq_some hnow hold⟩⟩

end Session

end DocImage
