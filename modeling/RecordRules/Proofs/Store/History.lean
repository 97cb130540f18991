import Mathlib.Data.List.Induction
import RecordRules.Backend
import RecordRules.Proofs.Store

/-!
# Histories of a store

Clients call a store that was empty, one call at a time and in any order.  A text stands under a
key exactly if it is that of the last set there that succeeded, with no removal that succeeded
after it (`Store.History.Explained`).  So only the order of the calls on each single key counts
(`Store.store_eq_of_onKey`).
-/

namespace RecordRules

namespace Store

inductive Call where
  | get (key : String)
  | set (key : String) (d : Document)
  | remove (key : String)
  | keys

inductive Answer where
  | document (d : Option Document)
  | done
  | removed (found : Bool)
  | keys (keys : List String)

namespace Call

/-- The key that a call names. -/
def key? : Call → Option String
  | get key => some key
  | set key _ => some key
  | remove key => some key
  | keys => none

/-- The key under which a call that succeeds puts or removes a text. -/
def target? : Call → Option String
  | set key _ => some key
  | remove key => some key
  | _ => none

/-- A call that changes a key names it. -/
theorem key?_of_target? {c : Call} {key : String} (h : c.target? = some key) :
    c.key? = some key := by
  cases c with
  | set | remove => exact h
  | get | keys => cases h

/-- What a call that succeeds leaves under its target. -/
def leaves : Call → Option String
  | set _ d => d.text.toOption
  | _ => none

/-- Only a set leaves a text, which is that of its document. -/
theorem leaves_eq_some_iff {c : Call} {key text : String} (h : c.target? = some key) :
    c.leaves = some text ↔ ∃ d, c = set key d ∧ d.text = .ok text := by
  cases c with
  | set k d =>
    obtain rfl := Option.some.inj h
    have htext : d.text.toOption = some text ↔ d.text = .ok text := by
      cases d.text <;> simp [Except.toOption]
    simp [leaves, htext]
  | remove => simp [leaves]
  | get | keys => cases h

end Call

end Store

/-- Make a call of a backend. -/
def Backend.perform {σ : Type} (b : Backend σ) : Store.Call → StoreM σ Store.Answer
  | .get key => return .document (← b.get key)
  | .set key d => do
    b.set key d
    return .done
  | .remove key => return .removed (← b.remove key)
  | .keys => return .keys (← b.keys)

theorem StoreM.bind_apply {σ α β : Type} (x : StoreM σ α) (f : α → StoreM σ β) (s : σ) :
    (x >>= f) s = match x s with
      | (.ok a, s') => f a s'
      | (.error e, s') => (.error e, s') := by
  simp only [bind, ExceptT.bind, ExceptT.mk, StateT.bind, ExceptT.bindCont]
  rcases x s with ⟨_ | _, s'⟩ <;> rfl

namespace Store

/-! ## One call -/

/-- The answer to a call, and the store after it. -/
def perform (s : Store) (c : Call) : Except StoreError Answer × Store :=
  Backend.inMemory.perform c s

variable {s s' : Store} {c : Call} {key text : String} {d : Document}

theorem perform_get (s : Store) (key : String) :
    s.perform (.get key) = ((s.get key).map .document, s) := by
  simp only [perform, Backend.perform, StoreM.bind_apply, Backend.inMemory]
  cases s.get key <;> rfl

theorem perform_set (s : Store) (key : String) (d : Document) :
    s.perform (.set key d) = match s.set key d with
      | .ok s' => (.ok .done, s')
      | .error e => (.error e, s) := by
  simp only [perform, Backend.perform, StoreM.bind_apply, Backend.inMemory]
  cases s.set key d <;> rfl

theorem perform_remove (s : Store) (key : String) :
    s.perform (.remove key) = match s.remove key with
      | .ok (found, s') => (.ok (.removed found), s')
      | .error e => (.error e, s) := by
  simp only [perform, Backend.perform, StoreM.bind_apply, Backend.inMemory]
  cases s.remove key <;> rfl

theorem perform_keys (s : Store) : s.perform .keys = (.ok (.keys s.keys), s) := rfl

/-- A call that names the empty key fails and leaves the store as it was. -/
theorem perform_of_emptyKey (h : c.key? = some "") (s : Store) :
    s.perform c = (.error .emptyKey, s) := by
  cases c with
  | keys => cases h
  | _ =>
    obtain rfl := Option.some.inj h
    rfl

/-- A set of a document that can be written succeeds, and puts its text under the key. -/
theorem perform_set_of_text (hkey : key ≠ "") (htext : d.text = .ok text) (s : Store) :
    s.perform (.set key d) = (.ok .done, ⟨s.texts.insert key text⟩) := by
  have hset : s.set key d = .ok ⟨s.texts.insert key text⟩ :=
    set_eq_ok_iff.2 ⟨String.isEmpty_eq_false_iff.2 hkey, text, htext, rfl⟩
  rw [perform_set, hset]

/-- A set of any other document fails and leaves the store as it was. -/
theorem perform_set_of_error (hkey : key ≠ "") {e : DocumentError} (htext : d.text = .error e)
    (s : Store) : s.perform (.set key d) = (.error (.codec key e), s) := by
  have hset : s.set key d = .error (.codec key e) := by
    rw [set, checkKey, String.isEmpty_eq_false_iff.2 hkey, htext]
    rfl
  rw [perform_set, hset]

/-- A removal tells whether there was anything to remove. -/
theorem perform_remove_of_ne (hkey : key ≠ "") (s : Store) :
    s.perform (.remove key) = (.ok (.removed (s.texts.contains key)), ⟨s.texts.erase key⟩) := by
  have hremove : s.remove key = .ok (s.texts.contains key, ⟨s.texts.erase key⟩) := by
    rw [remove, checkKey, String.isEmpty_eq_false_iff.2 hkey]
    rfl
  rw [perform_remove, hremove]

/-- A call does nothing, and then it fails or has no target, or it succeeds and changes what stands
under its target to what it leaves there, whatever the store holds. -/
theorem perform_cases (c : Call) :
    (∀ s : Store, (s.perform c).2 = s ∧ ((s.perform c).1.isOk = true → c.target? = none)) ∨
      ∃ key, c.target? = some key ∧ ∀ s : Store, (s.perform c).1.isOk = true ∧
        ∀ k, (s.perform c).2.texts.get? k = if key = k then c.leaves else s.texts.get? k := by
  by_cases hempty : c.key? = some ""
  · left
    intro s
    rw [perform_of_emptyKey hempty]
    exact ⟨rfl, nofun⟩
  · cases c with
    | get key =>
      left
      intro s
      rw [perform_get]
      exact ⟨rfl, fun _ => rfl⟩
    | set key d =>
      have hkey : key ≠ "" := fun h => hempty (congrArg some h)
      -- whether a document can be written does not depend on the store
      cases htext : d.text with
      | error e =>
        left
        intro s
        rw [perform_set_of_error hkey htext]
        exact ⟨rfl, nofun⟩
      | ok text =>
        refine .inr ⟨key, rfl, fun s => ?_⟩
        rw [perform_set_of_text hkey htext, Call.leaves, htext]
        exact ⟨rfl, fun k => KeyMap.get?_insert s.texts key k text⟩
    | remove key =>
      have hkey : key ≠ "" := fun h => hempty (congrArg some h)
      refine .inr ⟨key, rfl, fun s => ?_⟩
      rw [perform_remove_of_ne hkey]
      exact ⟨rfl, KeyMap.get?_erase s.texts key⟩
    | keys => exact .inl fun s => ⟨rfl, fun _ => rfl⟩

/-- A call that fails changes nothing. -/
theorem perform_snd_of_error {e : StoreError} (h : (s.perform c).1 = .error e) :
    (s.perform c).2 = s := by
  rcases perform_cases c with hkept | ⟨key, -, hchanged⟩
  · exact (hkept s).1
  · have hok := (hchanged s).1
    rw [h] at hok
    cases hok

/-- A call leaves what stands under other keys. -/
theorem get?_perform_of_ne (h : c.target? ≠ some key) (s : Store) :
    (s.perform c).2.texts.get? key = s.texts.get? key := by
  rcases perform_cases c with hkept | ⟨k, hk, hchanged⟩
  · rw [(hkept s).1]
  · rw [(hchanged s).2 key, if_neg fun heq => h (hk.trans (congrArg some heq))]

/-- What a call leaves under a key depends on what stood there and on nothing else. -/
theorem get?_perform_congr (h : s.texts.get? key = s'.texts.get? key) (c : Call) :
    (s.perform c).2.texts.get? key = (s'.perform c).2.texts.get? key := by
  rcases perform_cases c with hkept | ⟨k, -, hchanged⟩
  · rw [(hkept s).1, (hkept s').1, h]
  · rw [(hchanged s).2 key, (hchanged s').2 key, h]

/-- Whether a set succeeds does not depend on the store. -/
theorem isOk_perform_set_iff :
    (s.perform (.set key d)).1.isOk = true ↔ key ≠ "" ∧ ∃ text, d.text = .ok text := by
  constructor
  · intro h
    rw [perform_set] at h
    cases hset : s.set key d with
    | error e =>
      rw [hset] at h
      cases h
    | ok s' =>
      obtain ⟨hkey, text, htext, -⟩ := set_eq_ok_iff.1 hset
      exact ⟨String.isEmpty_eq_false_iff.1 hkey, text, htext⟩
  · rintro ⟨hkey, text, htext⟩
    rw [perform_set_of_text hkey htext]
    rfl

/-! ## Histories -/

/-- A call of a client, and the answer to it. -/
structure Event (ι : Type) where
  client : ι
  call : Call
  answer : Except StoreError Answer

/-- What has happened so far, and what has become of the store. -/
structure History (ι : Type) where
  events : List (Event ι)
  store : Store

variable {ι : Type}

namespace History

def start : History ι := ⟨[], .empty⟩

def call (h : History ι) (client : ι) (c : Call) : History ι :=
  ⟨h.events ++ [⟨client, c, (h.store.perform c).1⟩], (h.store.perform c).2⟩

/-- The history of these calls, made one after another. -/
def ofCalls (calls : List (ι × Call)) : History ι :=
  calls.foldl (fun h x => h.call x.1 x.2) start

/-- A history grows by one call at its end. -/
theorem ofCalls_append_singleton (calls : List (ι × Call)) (x : ι × Call) :
    ofCalls (calls ++ [x]) = (ofCalls calls).call x.1 x.2 := by
  rw [ofCalls, List.foldl_append]
  rfl

end History

/-- The text is that of the last set on the key that succeeded, and no removal that succeeded came
after it. -/
def LastSet (events : List (Event ι)) (key text : String) : Prop :=
  ∃ before e after d, events = before ++ e :: after ∧
    e.call = .set key d ∧ e.answer.isOk = true ∧ d.text = .ok text ∧
    ∀ f ∈ after, f.answer.isOk = true → f.call.target? ≠ some key

/-- One more call is the last set itself, or leaves the last set what it was unless it changes the
key. -/
theorem lastSet_append_singleton {events : List (Event ι)} {e : Event ι} :
    LastSet (events ++ [e]) key text ↔
      (∃ d, e.call = .set key d ∧ e.answer.isOk = true ∧ d.text = .ok text) ∨
        LastSet events key text ∧ (e.answer.isOk = true → e.call.target? ≠ some key) := by
  constructor
  · rintro ⟨before, f, after, d, h, hcall, hok, htext, hafter⟩
    rcases List.eq_nil_or_concat after with rfl | ⟨rest, last, rfl⟩
    · obtain ⟨-, rfl⟩ := List.append_singleton_inj.1 h
      exact .inl ⟨d, hcall, hok, htext⟩
    · rw [List.concat_eq_append, ← List.cons_append, ← List.append_assoc,
        List.append_singleton_inj] at h
      obtain ⟨rfl, rfl⟩ := h
      rw [List.concat_eq_append, List.forall_mem_append] at hafter
      obtain ⟨hrest, hlast⟩ := hafter
      exact .inr ⟨⟨before, f, rest, d, rfl, hcall, hok, htext, hrest⟩, hlast e (.head _)⟩
  · rintro (⟨d, hcall, hok, htext⟩ | ⟨⟨before, f, after, d, rfl, hcall, hok, htext, hafter⟩, he⟩)
    · exact ⟨events, e, [], d, rfl, hcall, hok, htext, nofun⟩
    · refine ⟨before, f, after ++ [e], d, by simp, hcall, hok, htext, ?_⟩
      rw [List.forall_mem_append, List.forall_mem_singleton]
      exact ⟨hafter, he⟩

/-- What a store holds, and how it answers the next call, is told by the calls before. -/
structure History.Explained (h : History ι) : Prop where
  texts : ∀ key text, h.store.texts.get? key = some text ↔ LastSet h.events key text
  set : ∀ key d,
    (h.store.perform (.set key d)).1.isOk = true ↔ key ≠ "" ∧ ∃ text, d.text = .ok text
  remove : ∀ key, key ≠ "" → ∃ found, (h.store.perform (.remove key)).1 = .ok (.removed found) ∧
    (found = true ↔ ∃ text, LastSet h.events key text)
  keys : ∃ keys, h.store.perform .keys = (.ok (.keys keys), h.store) ∧ keys.Pairwise (· < ·) ∧
    ∀ key, key ∈ keys ↔ ∃ text, LastSet h.events key text
  emptyKey : ∀ c : Call, c.key? = some "" → h.store.perform c = (.error .emptyKey, h.store)
  unwritable : ∀ key d cause, d.text = .error cause →
    ∃ e, h.store.perform (.set key d) = (.error e, h.store)
  failed : ∀ c e, (h.store.perform c).1 = .error e → (h.store.perform c).2 = h.store

/-- A call keeps what the events say of the texts. -/
theorem get?_call_iff {h : History ι}
    (htexts : ∀ key text, h.store.texts.get? key = some text ↔ LastSet h.events key text)
    (client : ι) (c : Call) (key text : String) :
    (h.call client c).store.texts.get? key = some text ↔
      LastSet (h.call client c).events key text := by
  rw [History.call, lastSet_append_singleton, ← htexts]
  dsimp only
  -- either nothing changes and the last set stays the last, or one key gets what the call leaves
  rcases perform_cases c with hkept | ⟨k, hk, hchanged⟩
  · obtain ⟨hstore, htarget⟩ := hkept h.store
    rw [hstore]
    constructor
    · intro hget
      refine .inr ⟨hget, fun hok => ?_⟩
      rw [htarget hok]
      nofun
    · rintro (⟨d, rfl, hok, -⟩ | ⟨hget, -⟩)
      · cases htarget hok
      · exact hget
  · obtain ⟨hok, hget⟩ := hchanged h.store
    rw [hget key]
    by_cases hkey : k = key
    · subst hkey
      rw [if_pos rfl, Call.leaves_eq_some_iff hk]
      simp [hok, hk]
    · have hne : c.target? ≠ some key := fun heq => hkey (Option.some.inj (hk.symm.trans heq))
      rw [if_neg hkey]
      constructor
      · intro hget
        exact .inr ⟨hget, fun _ => hne⟩
      · rintro (⟨d, rfl, -⟩ | ⟨hget, -⟩)
        · exact absurd rfl hne
        · exact hget

/-- A text stands under a key exactly if it is that of the last set there that succeeded, with no
removal that succeeded after it. -/
theorem get?_ofCalls_iff (calls : List (ι × Call)) : ∀ key text,
    (History.ofCalls calls).store.texts.get? key = some text ↔
      LastSet (History.ofCalls calls).events key text := by
  induction calls using List.reverseRecOn with
  | nil =>
    intro key text
    constructor
    · nofun
    · rintro ⟨before, e, after, d, h, -⟩
      simp [History.ofCalls, History.start] at h
  | append_singleton calls x ih =>
    rw [History.ofCalls_append_singleton]
    exact get?_call_iff ih x.1 x.2

/-- A key is there when it was set and not removed since. -/
theorem contains_ofCalls_iff (calls : List (ι × Call)) (key : String) :
    (History.ofCalls calls).store.texts.contains key = true ↔
      ∃ text, LastSet (History.ofCalls calls).events key text := by
  simp only [KeyMap.contains_iff, get?_ofCalls_iff]

/-- Whatever calls are made, the history of them is explained by its events. -/
theorem explained_ofCalls (calls : List (ι × Call)) : (History.ofCalls calls).Explained where
  texts := get?_ofCalls_iff calls
  set _ _ := isOk_perform_set_iff
  remove key hkey := by
    rw [perform_remove_of_ne hkey]
    exact ⟨_, rfl, contains_ofCalls_iff calls key⟩
  keys := by
    refine ⟨_, perform_keys _, Entries.ascending_iff.1 (KeyMap.ascending _), fun key => ?_⟩
    rw [← contains_ofCalls_iff]
    exact KeyMap.mem_keys
  emptyKey _ hc := perform_of_emptyKey hc _
  unwritable key d cause htext := by
    by_cases hkey : key = ""
    · subst hkey
      exact ⟨_, perform_of_emptyKey rfl _⟩
    · exact ⟨_, perform_set_of_error hkey htext _⟩
  failed _ _ := perform_snd_of_error

/-! ## Calls on different keys -/

/-- The calls that name a key, in their order. -/
def onKey (key : String) (calls : List (ι × Call)) : List Call :=
  (calls.map Prod.snd).filter fun c => c.key? = some key

/-- The store after these calls. -/
def after (s : Store) (calls : List Call) : Store := calls.foldl (fun s c => (s.perform c).2) s

/-- The calls are made one after the other. -/
theorem after_append_singleton (s : Store) (calls : List Call) (c : Call) :
    s.after (calls ++ [c]) = ((s.after calls).perform c).2 := by
  rw [after, List.foldl_append]
  rfl

/-- Which clients made the calls is of no concern to the store. -/
theorem store_ofCalls (calls : List (ι × Call)) :
    (History.ofCalls calls).store = empty.after (calls.map Prod.snd) := by
  induction calls using List.reverseRecOn with
  | nil => rfl
  | append_singleton calls x ih =>
    rw [History.ofCalls_append_singleton, List.map_append, List.map_singleton,
      after_append_singleton, ← ih]
    rfl

/-- Only the calls on a key count for what stands there. -/
theorem get?_after_filter (calls : List Call) (h : s.texts.get? key = s'.texts.get? key) :
    (s.after calls).texts.get? key =
      (s'.after (calls.filter fun c => c.key? = some key)).texts.get? key := by
  induction calls generalizing s s' with
  | nil => exact h
  | cons c calls ih =>
    -- a call that names another key leaves this one alone
    by_cases hc : c.key? = some key
    · rw [List.filter_cons_of_pos (by simpa using hc)]
      exact ih (get?_perform_congr h c)
    · rw [List.filter_cons_of_neg (by simpa using hc)]
      exact ih ((get?_perform_of_ne (mt Call.key?_of_target? hc) s).trans h)

/-- What stands under a key depends on the calls on this key alone. -/
theorem get?_ofCalls (calls : List (ι × Call)) (key : String) :
    (History.ofCalls calls).store.texts.get? key =
      (empty.after (onKey key calls)).texts.get? key := by
  rw [store_ofCalls, onKey]
  exact get?_after_filter _ rfl

/-- So two histories with the same calls on each key leave the same store. -/
theorem store_eq_of_onKey {calls calls' : List (ι × Call)}
    (h : ∀ key, onKey key calls = onKey key calls') :
    (History.ofCalls calls).store = (History.ofCalls calls').store := by
  refine congrArg Store.mk ?_
  ext1 key
  rw [get?_ofCalls, get?_ofCalls, h key]

/-- The calls of a client, in their order. -/
def ofClient [DecidableEq ι] (client : ι) (calls : List (ι × Call)) : List (ι × Call) :=
  calls.filter (·.1 = client)

/-- Clients that use keys of their own leave the same store, however their calls interleave. -/
theorem store_eq_of_owner [DecidableEq ι] {calls calls' : List (ι × Call)} (owner : String → ι)
    (howner : ∀ x ∈ calls ++ calls', ∀ key, x.2.key? = some key → x.1 = owner key)
    (h : ∀ client, ofClient client calls = ofClient client calls') :
    (History.ofCalls calls).store = (History.ofCalls calls').store := by
  -- only the owner makes calls on a key, so dropping those of other clients loses none
  have hown : ∀ key, ∀ l ⊆ calls ++ calls',
      onKey key l = onKey key (ofClient (owner key) l) := by
    intro key l hl
    rw [onKey, onKey, ofClient, List.filter_map, List.filter_map, List.filter_filter]
    refine congrArg (List.map Prod.snd) (List.filter_congr fun x hx => ?_)
    by_cases hkey : x.2.key? = some key
    · simp [hkey, howner x (hl hx) key hkey]
    · simp [hkey]
  refine store_eq_of_onKey fun key => ?_
  calc
    onKey key calls = onKey key (ofClient (owner key) calls) :=
      hown key calls (List.subset_append_left _ _)
    _ = onKey key (ofClient (owner key) calls') := by rw [h]
    _ = onKey key calls' := (hown key calls' (List.subset_append_right _ _)).symm

/-- Whatever calls clients make of a store that was empty, in whatever order, it is explained by
them.  It is the same after any others that are the same on each single key, so it is the same in
whatever way the calls of clients with keys of their own interleave. -/
theorem calls_determine_store [DecidableEq ι] (calls : List (ι × Call)) :
    (History.ofCalls calls).Explained ∧
      (∀ calls' : List (ι × Call), (∀ key, onKey key calls' = onKey key calls) →
        (History.ofCalls calls').store = (History.ofCalls calls).store) ∧
      ∀ (calls' : List (ι × Call)) (owner : String → ι),
        (∀ x ∈ calls' ++ calls, ∀ key, x.2.key? = some key → x.1 = owner key) →
        (∀ client, ofClient client calls' = ofClient client calls) →
        (History.ofCalls calls').store = (History.ofCalls calls).store :=
  ⟨explained_ofCalls calls, fun _ h => store_eq_of_onKey h,
    fun _ owner howner h => store_eq_of_owner owner howner h⟩

/-- Two clients.  One puts a document of another version, which the other one removes, and fails to
put one that has no text, as the offset of a point in time in it has seconds. -/
theorem calls_determine_store_two :
    let d := Document.filter (.leaf (.empty "x"))
    let later : Document := { d with version := 2 }
    let e := Document.filter (.leaf ⟨"x", none, none,
      [.dateTime ⟨⟨2024, 1, 1, by decide⟩, 0, 0, 0, 0, 3601, by decide⟩], none⟩)
    let calls : List (Bool × Call) := [(true, .set "b" later), (false, .set "a" d),
      (false, .remove "b"), (true, .set "a" e), (true, .keys)]
    let calls' : List (Bool × Call) := [(false, .set "a" d), (true, .keys),
      (true, .set "b" later), (true, .set "a" e), (false, .remove "b")]
    (History.ofCalls calls).store.keys = ["a"] ∧ (History.ofCalls calls).Explained ∧
      (History.ofCalls calls').store = (History.ofCalls calls).store := by
  intro d later e calls calls'
  obtain ⟨hexplained, hsame, -⟩ := calls_determine_store calls
  refine ⟨rfl, hexplained, hsame calls' fun key => ?_⟩
  by_cases ha : "a" = key
  · subst ha
    rfl
  · by_cases hb : "b" = key
    · subst hb
      rfl
    · simp [onKey, calls, calls', Call.key?, ha, hb]

end Store

end RecordRules
