import Agmem.Core.Chunk
import Agmem.Embed.Passages
import Agmem.Ranking.Placed

/-! An embedding model behind an HTTP API. A request goes out again after a transient answer; the
answer that counts must hold as many vectors as there were texts, and they are put in the order of
the places they carry. What the endpoint answers is in its hands, places and widths included. -/

namespace Agmem.Embed.Api

open Core

/-- Attempts per request. -/
def ATTEMPTS : ℕ := 3

structure Request where
  model : Text
  input : List Text

structure Datum (F : Type) where
  index : ℕ
  embedding : List F

/-- An answer of the endpoint: its status, what its body reads as, and what it holds as JSON. -/
structure HttpResponse (F : Type) where
  status : ℕ
  text : Text
  /-- The message of an error body, where it is one. -/
  wrapped : Option Text
  json : Except Text (List (Datum F))

/-- What one attempt gets back: an answer, or a failure to get one. -/
abbrev Answer (F : Type) := Except Text (HttpResponse F)

/-- Why one attempt did not produce vectors. -/
inductive Failed where
  /-- "…: …", with what the connection failed with -/
  | connection (error : Text)
  /-- "… answered …: …" -/
  | status (status : ℕ) (message : Text)
  /-- "… answered malformed JSON: …" -/
  | malformed (error : Text)
  /-- "… returned … vectors for … inputs" -/
  | count (vectors inputs : ℕ)

/-- Whether another attempt might produce them. -/
inductive Outcome where
  | transient (failed : Failed)
  | final (failed : Failed)

inductive EmbedError where
  | failed (failed : Failed)
  /-- "after … attempts: …" -/
  | exhausted (last : Option Failed)
  /-- "… at … answered the probe with no vector" -/
  | noProbe
  /-- "the endpoint answered a query with no vector" -/
  | noVector

/-- The provider's own words, kept short. -/
def errorMessage {F : Type} (response : HttpResponse F) : Text :=
  let text := response.wrapped.getD (trim response.text)
  if text.isEmpty then ['n', 'o', ' ', 'b', 'o', 'd', 'y'] else text.take 300

def HttpResponse.isSuccess {F : Type} (response : HttpResponse F) : Bool :=
  decide (200 ≤ response.status ∧ response.status < 300)

/-- A refusal that may clear in a moment. -/
def HttpResponse.isTransient {F : Type} (response : HttpResponse F) : Bool :=
  decide (response.status = 429 ∨ 500 ≤ response.status)

section Scalars

variable {F : Type} [Zero F] [Add F] [Mul F] [Div F] [LT F] [DecidableLT F] (sqrt : F → F)

/-- Unit length, whichever provider answered. -/
def normalise : List F → List F := unitLength sqrt

def once (input : List Text) (answer : Answer F) : Except Outcome (List (List F)) :=
  match answer with
  | .error error => .error (.transient (.connection error))
  | .ok response =>
    if response.isSuccess then
      match response.json with
      | .error error => .error (.final (.malformed error))
      | .ok data =>
        if data.length ≠ input.length then .error (.final (.count data.length input.length))
        else
          .ok ((data.insertionSort fun d d' => d.index ≤ d'.index).map fun datum =>
            normalise sqrt datum.embedding)
    else if response.isTransient then
      .error (.transient (.status response.status (errorMessage response)))
    else .error (.final (.status response.status (errorMessage response)))

/-- The attempts that are left, and what the last one failed with. -/
def attempts (input : List Text) (last : Option Failed) :
    List (Answer F) → Except EmbedError (List (List F))
  | [] => .error (.exhausted last)
  | answer :: answers =>
    match once sqrt input answer with
    | .ok vectors => .ok vectors
    | .error (.final failed) => .error (.failed failed)
    | .error (.transient failed) => attempts input (some failed) answers

/-- The endpoint, by the number of the attempt and the request that was sent. -/
abbrev Endpoint (F : Type) := ℕ → Request → Answer F

/-- Embeds through an endpoint; the width was learnt at startup. -/
structure ApiEmbedder where
  model : Text
  dim : ℕ

/-- What the attempts of one request get back. -/
def answers (endpoint : Endpoint F) (model : Text) (texts : List Text) : List (Answer F) :=
  (List.range ATTEMPTS).map fun attempt => endpoint (attempt + 1) ⟨model, texts⟩

/-- One call for the texts, retried on the transient answers. -/
def request (endpoint : Endpoint F) (model : Text) (texts : List Text) :
    Except EmbedError (List (List F)) :=
  attempts sqrt texts none (answers endpoint model texts)

/-- Learn the width of the model with one probe call. -/
def ApiEmbedder.new (endpoint : Endpoint F) (model : Text) : Except EmbedError ApiEmbedder :=
  match request sqrt endpoint model [['a', 'g', 'm', 'e', 'm']] with
  | .error error => .error error
  | .ok probe =>
    match (probe.head?.map List.length).getD 0 with
    | 0 => .error .noProbe
    | dim + 1 => .ok ⟨model, dim + 1⟩

def ApiEmbedder.embedPassages (e : ApiEmbedder) (endpoint : Endpoint F) (passages : List Text) :
    Except EmbedError (List (List F)) :=
  if passages.isEmpty then .ok [] else request sqrt endpoint e.model passages

def ApiEmbedder.embedQuery (e : ApiEmbedder) (endpoint : Endpoint F) (query : Text) :
    Except EmbedError (List F) :=
  match request sqrt endpoint e.model [query] with
  | .error error => .error error
  | .ok vectors =>
    match vectors.getLast? with
    | none => .error .noVector
    | some vector => .ok vector

/-! ### The answer that counts -/

/-- The data of the first answer that is not transient, if it has any. -/
def served : List (Answer F) → Option (List (Datum F))
  | [] => none
  | .error _ :: answers => served answers
  | .ok response :: answers =>
    if response.isSuccess then response.json.toOption
    else if response.isTransient then served answers
    else none

variable {sqrt}

/-- Vectors are made of as many data as there were texts. -/
theorem attempts_eq_ok_iff {input : List Text} {last : Option Failed} {answers : List (Answer F)}
    {vectors : List (List F)} : attempts sqrt input last answers = .ok vectors ↔
      ∃ data, served answers = some data ∧ data.length = input.length ∧
        vectors = (data.insertionSort fun d d' => d.index ≤ d'.index).map fun datum =>
          normalise sqrt datum.embedding := by
  induction answers generalizing last with
  | nil => exact iff_of_false (fun h => nomatch h) (fun ⟨_, h, _⟩ => nomatch h)
  | cons answer answers ih =>
    unfold attempts
    cases answer with
    | error error => exact ih
    | ok response =>
      simp only [once, served]
      by_cases hsuccess : response.isSuccess = true
      · simp only [hsuccess, if_true]
        cases response.json with
        | error error => exact iff_of_false (fun h => nomatch h) (fun ⟨_, h, _⟩ => nomatch h)
        | ok data =>
          dsimp only
          by_cases hcount : data.length = input.length
          · rw [if_neg (not_not.mpr hcount)]
            constructor
            · intro h
              cases h
              exact ⟨data, rfl, hcount, rfl⟩
            · rintro ⟨data', hdata, -, rfl⟩
              cases hdata
              rfl
          · rw [if_pos hcount]
            refine iff_of_false (fun h => nomatch h) ?_
            rintro ⟨data', hdata, hcount', -⟩
            cases hdata
            exact hcount hcount'
      · simp only [hsuccess, Bool.false_eq_true, if_false]
        by_cases htransient : response.isTransient = true
        · simp only [htransient, if_true]
          exact ih
        · simp only [htransient, Bool.false_eq_true, if_false]
          exact iff_of_false (fun h => nomatch h) (fun ⟨_, h, _⟩ => nomatch h)

/-! ### Which vector is whose -/

/-- One vector for each text: the one under a place is made of the one datum of that place, and has
the width of the embedder. -/
def Paired (sqrt : F → F) (dim : ℕ) (texts : List Text) (data : List (Datum F))
    (vectors : List (List F)) : Prop :=
  vectors.length = texts.length ∧ (∀ v ∈ vectors, v.length = dim) ∧
    ∀ i < texts.length, ∃ datum, data.filter (fun d => decide (d.index = i)) = [datum] ∧
      vectors[i]? = some (normalise sqrt datum.embedding)

/-- The data are of the places up to the number of texts, and of one width. -/
def WellPlaced (dim : ℕ) (data : List (Datum F)) : Prop :=
  Ranking.Placed Datum.index data ∧ ∀ datum ∈ data, datum.embedding.length = dim

theorem paired_iff {dim : ℕ} {texts : List Text} {data : List (Datum F)}
    (hcount : data.length = texts.length) :
    Paired sqrt dim texts data ((data.insertionSort fun d d' => d.index ≤ d'.index).map fun datum =>
      normalise sqrt datum.embedding) ↔ WellPlaced dim data := by
  constructor
  · rintro ⟨-, hwidth, hpaired⟩
    refine ⟨fun i hi => ?_, fun datum hdatum => ?_⟩
    · obtain ⟨datum, hfilter, -⟩ := hpaired i (hcount ▸ hi)
      have hmem : datum ∈ data.filter fun d => decide (d.index = i) :=
        hfilter ▸ List.mem_singleton_self datum
      obtain ⟨hdatum, hindex⟩ := List.mem_filter.mp hmem
      exact ⟨datum, hdatum, of_decide_eq_true hindex⟩
    · rw [← length_unitLength sqrt]
      exact hwidth _ (List.mem_map_of_mem ((List.mem_insertionSort _).mpr hdatum))
  · rintro ⟨hplaced, hwidth⟩
    refine ⟨?_, fun v hv => ?_, fun i hi => ?_⟩
    · rw [List.length_map, List.length_insertionSort, hcount]
    · obtain ⟨datum, hdatum, rfl⟩ := List.mem_map.mp hv
      rw [normalise, length_unitLength]
      exact hwidth datum ((List.mem_insertionSort _).mp hdatum)
    · obtain ⟨datum, hdatum, rfl⟩ := hplaced i (hcount ▸ hi)
      refine ⟨datum, hplaced.filter_eq hdatum, ?_⟩
      rw [List.getElem?_map, hplaced.getElem? hdatum]
      rfl

/-- The vectors of the passages are those of the answer that counts, each of its own passage,
exactly where its data are of all the places and of the width of the embedder. -/
theorem embedPassages_paired_iff (e : ApiEmbedder) (endpoint : Endpoint F) (passages : List Text) :
    (∀ vectors, e.embedPassages sqrt endpoint passages = .ok vectors →
        Paired sqrt e.dim passages ((served (answers endpoint e.model passages)).getD []) vectors) ↔
      passages = [] ∨ ∀ data, served (answers endpoint e.model passages) = some data →
        data.length = passages.length → WellPlaced e.dim data := by
  unfold ApiEmbedder.embedPassages request
  cases passages with
  | nil =>
    refine iff_of_true (fun vectors h => ?_) (.inl rfl)
    cases h
    exact ⟨rfl, fun _ hv => absurd hv List.not_mem_nil, fun i hi => absurd hi (Nat.not_lt_zero i)⟩
  | cons passage passages =>
    simp only [List.isEmpty_cons, Bool.false_eq_true, if_false, attempts_eq_ok_iff, reduceCtorEq,
      false_or]
    constructor
    · intro h data hserved hcount
      have hpaired := h _ ⟨data, hserved, hcount, rfl⟩
      rw [hserved, Option.getD_some] at hpaired
      exact (paired_iff hcount).mp hpaired
    · rintro h vectors ⟨data, hserved, hcount, rfl⟩
      rw [hserved, Option.getD_some]
      exact (paired_iff hcount).mpr (h data hserved hcount)

/-- A query is answered with the vector of the one datum, whatever place and width it has. -/
theorem embedQuery_eq_ok_iff {e : ApiEmbedder} {endpoint : Endpoint F} {query : Text}
    {vector : List F} : e.embedQuery sqrt endpoint query = .ok vector ↔
      ∃ datum, served (answers endpoint e.model [query]) = some [datum] ∧
        vector = normalise sqrt datum.embedding := by
  unfold ApiEmbedder.embedQuery request
  constructor
  · intro h
    split at h
    · cases h
    · next vectors hvectors =>
      obtain ⟨data, hserved, hcount, rfl⟩ := attempts_eq_ok_iff.mp hvectors
      obtain ⟨datum, rfl⟩ := List.length_eq_one_iff.mp hcount
      cases h
      exact ⟨datum, hserved, rfl⟩
  · rintro ⟨datum, hserved, rfl⟩
    rw [attempts_eq_ok_iff.mpr ⟨[datum], hserved, rfl, rfl⟩]
    rfl

/-- An embedder that was set up produces vectors. -/
theorem new_eq_ok {endpoint : Endpoint F} {model : Text} {e : ApiEmbedder}
    (h : ApiEmbedder.new sqrt endpoint model = .ok e) : e.model = model ∧ 0 < e.dim := by
  unfold ApiEmbedder.new at h
  split at h
  · cases h
  · split at h
    · cases h
    · cases h
      exact ⟨rfl, Nat.succ_pos _⟩

end Scalars

/-- An endpoint that answers two texts with two vectors of the first place. -/
def repeats : Endpoint ℤ := fun _ _ =>
  .ok ⟨200, [], none, .ok [⟨0, [0, 1]⟩, ⟨0, [1, 0]⟩]⟩

/-- Two data of one place are taken for the vectors of two passages; every root taken is that of
one. -/
theorem repeats_accepted :
    ApiEmbedder.embedPassages id ⟨['m'], 2⟩ repeats [['a'], ['b']] = .ok [[0, 1], [1, 0]] ∧
      ¬ Paired id 2 [['a'], ['b']]
        ((served (answers repeats ['m'] [['a'], ['b']])).getD []) [[0, 1], [1, 0]] := by
  refine ⟨rfl, ?_⟩
  rintro ⟨-, -, hpaired⟩
  obtain ⟨datum, hfilter, -⟩ := hpaired 0 (by decide)
  have htwo : 2 = 1 := congrArg List.length hfilter
  exact absurd htwo (by decide)

end Agmem.Embed.Api
