import RecordRules.Proofs.Document.Text
import RecordRules.Store

/-!
# What a store gives back

A document is written when it is kept, but is checked only when it is asked for.  A store gives
back an equal document exactly if its version is the current one, the ids are distinct, no record in
the arguments holds a text under the key of tags, and the JSON is not too deep
(`Store.exists_get_iff`).
-/

namespace RecordRules.Store

variable {s s' : Store} {key : String} {d : Document}

/-- A document is stored when the key is not empty and the document can be written.  Neither its
version nor its ids are looked at. -/
theorem set_eq_ok_iff : s.set key d = .ok s' ↔
    key.isEmpty = false ∧ ∃ text, d.text = .ok text ∧ ⟨s.texts.insert key text⟩ = s' := by
  simp only [set, checkKey, bind_eq_ok_iff, mapError_eq_ok_iff, pure_eq_ok_iff]
  cases key.isEmpty <;> simp

/-- What a store gives back right after it has accepted a document. -/
theorem get_of_set (h : s.set key d = .ok s') :
    ∃ j, d.toJson = .ok j ∧ s'.get key =
      ((if j.depth ≤ Json.maxOpen then Document.ofJson j else .error .json).map some).mapError
        (.codec key) := by
  obtain ⟨hkey, text, htext, rfl⟩ := set_eq_ok_iff.1 h
  obtain ⟨j, hj, hread⟩ := Document.ofText_of_text htext
  refine ⟨j, hj, ?_⟩
  rw [get, checkKey, hkey, KeyMap.get?_insert, if_pos rfl, ← hread]
  rfl

/-- A store that has accepted a document gives back an equal one exactly if its version is the
current one, its ids are distinct, no record in its arguments holds a text under the key of tags,
and its JSON is not too deep. -/
theorem exists_get_iff (h : s.set key d = .ok s') :
    (∃ d', s'.get key = .ok (some d') ∧ (d' == d) = true) ↔
      d.version = Document.currentVersion ∧ d.ids.Nodup ∧
        (∀ v ∈ d.arguments, v.tagFree = true) ∧
          ∃ j, d.toJson = .ok j ∧ j.depth ≤ Json.maxOpen := by
  -- what was stored is the text of the JSON, so everything is decided by reading this JSON
  obtain ⟨j, hj, hget⟩ := get_of_set h
  constructor
  · rintro ⟨d', hd', heq⟩
    rw [hget, mapError_eq_ok_iff, map_eq_ok_iff] at hd'
    obtain ⟨_, hread, hsome⟩ := hd'
    obtain rfl := Option.some.inj hsome
    split at hread
    · next hdepth =>
      obtain ⟨hversion, hid, htags⟩ := Document.readable_of_ofJson hj hread heq
      exact ⟨hversion, hid, htags, j, hj, hdepth⟩
    · cases hread
  · rintro ⟨hversion, hid, htags, j', hj', hdepth⟩
    obtain rfl := Except.ok.inj (hj.symm.trans hj')
    refine ⟨d.asRead, ?_, d.asRead_beq⟩
    rw [hget, if_pos hdepth, Document.ofJson_of_nodup hversion htags hid hj]
    rfl

/-- An unfinished rule comes back from a store that had another document under its key. -/
theorem exists_get_iff_unfinished :
    let d := Document.filter (.group "g" .or true [
      .leaf ⟨"price", some [.field "orders", .index 0], none,
        [.recordOf [("at", .list [.int 7]), ("name", .text "Ann")]], none⟩,
      .group "h" .and false []])
    ∃ s s', Store.empty.set "k" (.sort []) = .ok s ∧ s.set "k" d = .ok s' ∧
      ∃ d', s'.get "k" = .ok (some d') ∧ (d' == d) = true := by
  refine ⟨_, _, rfl, rfl, (exists_get_iff rfl).2 ⟨rfl, ?_, ?_, _, rfl, ?_⟩⟩
  · decide
  · decide
  · decide

/-- A rule in which two nodes share an id is accepted in place of one that can be read, and can
then no longer be read. -/
theorem exists_set_get_duplicateId :
    let d := Document.filter (.leaf (.empty "x"))
    let e := Document.filter (.group "g" .and false [.leaf (.empty "x"), .leaf (.empty "x")])
    ∃ s s', Store.empty.set "k" d = .ok s ∧ s.get "k" = .ok (some d) ∧
      s.set "k" e = .ok s' ∧ s'.get "k" = .error (.codec "k" (.duplicateId "x")) := by
  intro d e
  obtain ⟨s, hd⟩ : ∃ s, Store.empty.set "k" d = .ok s := ⟨_, rfl⟩
  obtain ⟨s', he⟩ : ∃ s', s.set "k" e = .ok s' := ⟨_, rfl⟩
  obtain ⟨j, hj, hget⟩ := get_of_set hd
  obtain ⟨k, hk, hget'⟩ := get_of_set he
  obtain rfl := Except.ok.inj hj
  obtain rfl := Except.ok.inj hk
  rw [Document.ofJson_of_version_eq rfl] at hget hget'
  exact ⟨s, s', hd, hget, he, hget'⟩

end RecordRules.Store
