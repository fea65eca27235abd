import Mathlib.Algebra.Ring.Nat
import Agmem.Embed.Passages

/-! The local backend: a model on llama.cpp. A text becomes tokens, cut to what the model takes with
the end token kept last; tokens go to the model in groups that fit one physical batch; and each
sequence of a group comes back pooled, at unit length. The model itself, its tokens and what it
makes of a group are not looked into. -/

namespace Agmem.Embed.Llama

open Core Ranking

/-- Longest input, in tokens. -/
def MAX_TOKENS : ℕ := 512

/-- Tokens one `decode` takes. -/
def BATCH_TOKENS : ℕ := 2048

/-- Sequences one `decode` may carry. -/
def MAX_SEQUENCES : ℕ := 64

/-- A loaded model, with what it answers. -/
structure LlamaModel (Token F : Type) where
  strToToken : Text → Except Text (List Token)
  tokenEos : Token
  nCtxTrain : ℕ
  trained : 0 < nCtxTrain
  /-- What `decode` of these sequences fails with, if it does. -/
  decode : List (List Token) → Option Text
  /-- The pooled output of one of the sequences that were decoded. -/
  embeddingsSeqIth : List (List Token) → ℕ → Except Text (List F)

inductive RuntimeError where
  | llama (message : Text)
  /-- "model returned …-dimensional vectors, expected …" -/
  | width (pooled dim : ℕ)

/-- What every embed call needs. -/
structure Runtime (Token F : Type) where
  model : LlamaModel Token F
  dim : ℕ

variable {Token F : Type}

/-- The shorter of the longest input and the training length of the model. -/
def Runtime.truncateTo (r : Runtime Token F) : ℕ := min MAX_TOKENS r.model.nCtxTrain

/-- The tokens of a text, truncated with the end token kept last. -/
def Runtime.tokenise (r : Runtime Token F) (text : Text) : Except RuntimeError (List Token) :=
  match r.model.strToToken text with
  | .error message => .error (.llama message)
  | .ok tokens =>
    if r.truncateTo < tokens.length then
      .ok (tokens.take (r.truncateTo - 1) ++ [r.model.tokenEos])
    else .ok tokens

section Scalars

variable [Zero F] [Add F] [Mul F] [Div F] [LT F] [DecidableLT F] (sqrt : F → F)

/-- L2-normalise. -/
def normalise : List F → List F := unitLength sqrt

/-- The vector of one sequence of a group. -/
def pooled (r : Runtime Token F) (group : List (List Token)) (seq : ℕ) :
    Except RuntimeError (List F) :=
  match r.model.embeddingsSeqIth group seq with
  | .error message => .error (.llama message)
  | .ok pooled =>
    if pooled.length ≠ r.dim then .error (.width pooled.length r.dim)
    else .ok (normalise sqrt pooled)

/-- Run one physical batch of sequences and pool each. -/
def decodeGroup (r : Runtime Token F) (group : List (List Token)) :
    Except RuntimeError (List (List F)) :=
  match r.model.decode group with
  | some message => .error (.llama message)
  | none => collect (pooled sqrt r group) (List.range group.length)

/-- The loop over the tokenised texts: the vectors so far, the group that is filled, and how many
tokens it has. -/
def embedFrom (r : Runtime Token F) (vectors : List (List F)) (group : List (List Token))
    (groupTokens : ℕ) : List (List Token) → Except RuntimeError (List (List F))
  | [] =>
    if group.isEmpty then .ok vectors
    else
      match decodeGroup sqrt r group with
      | .error e => .error e
      | .ok more => .ok (vectors ++ more)
  | tokens :: rest =>
    let full := decide (BATCH_TOKENS < groupTokens + tokens.length) || group.length == MAX_SEQUENCES
    if full && !group.isEmpty then
      match decodeGroup sqrt r group with
      | .error e => .error e
      | .ok more => embedFrom r (vectors ++ more) [tokens] tokens.length rest
    else embedFrom r vectors (group ++ [tokens]) (groupTokens + tokens.length) rest

/-- Embed texts in groups that fit one physical batch, in order. -/
def Runtime.embed (r : Runtime Token F) (texts : List Text) :
    Except RuntimeError (List (List F)) :=
  match collect r.tokenise texts with
  | .error e => .error e
  | .ok tokenised => embedFrom sqrt r [] [] 0 tokenised

/-- A runtime with the prefix that passages are marked with. -/
structure LlamaEmbedder (Token F : Type) where
  runtime : Runtime Token F
  passagePrefix : Text

/-- Embed texts that have their prefix; the thread of the model runs one call at a time. -/
def LlamaEmbedder.embed (e : LlamaEmbedder Token F) (texts : List Text) :
    Except RuntimeError (List (List F)) :=
  if texts.isEmpty then .ok [] else e.runtime.embed sqrt texts

def LlamaEmbedder.embedPassages (e : LlamaEmbedder Token F) (passages : List Text) :
    Except RuntimeError (List (List F)) :=
  e.embed sqrt (passages.map fun passage => e.passagePrefix ++ passage)

/-! ### Groups -/

/-- A group that one physical batch takes. -/
structure Fits (group : List (List Token)) : Prop where
  sequences : group.length ≤ MAX_SEQUENCES
  tokens : (group.map List.length).sum ≤ BATCH_TOKENS

/-- Whether a group is closed before the next sequence. -/
def isFull (group : List (List Token)) (tokens : List Token) : Bool :=
  decide (BATCH_TOKENS < (group.map List.length).sum + tokens.length) ||
    group.length == MAX_SEQUENCES

variable {sqrt} {r : Runtime Token F}

/-- The loop decodes the groups that the sequences are packed into. -/
theorem embedFrom_eq (vectors : List (List F)) (group tokenised : List (List Token)) :
    embedFrom sqrt r vectors group (group.map List.length).sum tokenised =
      extendAll (decodeGroup sqrt r) vectors (pack isFull group tokenised) := by
  induction tokenised generalizing vectors group with
  | nil =>
    rw [embedFrom, pack]
    split_ifs with hempty
    · rfl
    · rw [extendAll]
      cases decodeGroup sqrt r group <;> rfl
  | cons tokens rest ih =>
    rw [embedFrom, pack, isFull]
    split_ifs with hfull
    · rw [extendAll]
      cases decodeGroup sqrt r group with
      | error e => rfl
      | ok more =>
        dsimp only
        rw [← ih]
        simp
    · rw [← ih]
      simp

omit [Zero F] [Add F] [Mul F] [Div F] [LT F] [DecidableLT F] in
theorem length_tokenise {text : Text} {tokens : List Token} (h : r.tokenise text = .ok tokens) :
    tokens.length ≤ r.truncateTo := by
  have hpos : 0 < r.truncateTo := lt_min (by decide) r.model.trained
  unfold Runtime.tokenise at h
  split at h
  · cases h
  · split_ifs at h with hlong
    · cases h
      rw [List.length_append, List.length_take, List.length_singleton]
      omega
    · cases h
      omega

omit [Zero F] [Add F] [Mul F] [Div F] [LT F] [DecidableLT F] in
/-- Texts that are cut to the longest input are packed into groups that fit. -/
theorem fits_of_mem_pack {tokenised : List (List Token)}
    (h : ∀ tokens ∈ tokenised, tokens.length ≤ MAX_TOKENS) :
    ∀ g ∈ pack isFull [] tokenised, Fits g := by
  refine forall_pack (fun tokens htokens => ⟨by simp [MAX_SEQUENCES], ?_⟩)
    (fun g tokens htokens hg hfull => ?_) (.inl rfl)
  · have := h tokens htokens
    simp only [List.map_cons, List.map_nil, List.sum_cons, List.sum_nil]
    unfold MAX_TOKENS at this
    unfold BATCH_TOKENS
    omega
  · simp only [isFull, Bool.or_eq_false_iff, decide_eq_false_iff_not, not_lt, beq_eq_false_iff_ne]
      at hfull
    refine ⟨?_, ?_⟩
    · rw [List.length_append, List.length_singleton]
      exact Nat.lt_of_le_of_ne hg.sequences hfull.2
    · simpa using hfull.1

/-! ### Sequences on their own -/

/-- The model treats the sequences of a group that fits as it treats each of them alone. -/
structure Independent (m : LlamaModel Token F) : Prop where
  decode : ∀ group, Fits group →
    (m.decode group = none ↔ ∀ tokens ∈ group, m.decode [tokens] = none)
  pooled : ∀ group, Fits group → m.decode group = none → ∀ seq tokens, group[seq]? = some tokens →
    m.embeddingsSeqIth group seq = m.embeddingsSeqIth [tokens] 0

/-- The vector that the tokens have alone. -/
def Alone (sqrt : F → F) (r : Runtime Token F) (tokens : List Token) (vector : List F) : Prop :=
  decodeGroup sqrt r [tokens] = .ok [vector]

theorem alone_iff {tokens : List Token} {vector : List F} : Alone sqrt r tokens vector ↔
    r.model.decode [tokens] = none ∧ pooled sqrt r [tokens] 0 = .ok vector := by
  unfold Alone decodeGroup
  cases r.model.decode [tokens] with
  | some message => simp
  | none =>
    rw [collect_eq_ok_iff]
    simp [List.range_succ]

theorem decodeGroup_eq_ok_iff (h : Independent r.model) {group : List (List Token)}
    (hfits : Fits group) {vectors : List (List F)} :
    decodeGroup sqrt r group = .ok vectors ↔ List.Forall₂ (Alone sqrt r) group vectors := by
  have hdecode := h.decode group hfits
  rw [decodeGroup, List.forall₂_iff_get]
  simp only [List.get_eq_getElem, alone_iff]
  cases hgroup : r.model.decode group with
  | some message =>
    refine iff_of_false (fun h => nomatch h) fun ⟨hlength, hall⟩ => ?_
    refine absurd (hdecode.mpr fun tokens htokens => ?_) (by rw [hgroup]; simp)
    obtain ⟨seq, hseq, rfl⟩ := List.mem_iff_getElem.mp htokens
    exact (hall seq hseq (hlength ▸ hseq)).1
  | none =>
    dsimp only
    rw [collect_eq_ok_iff, List.forall₂_iff_get]
    simp only [List.length_range, List.get_eq_getElem, List.getElem_range]
    refine and_congr_right fun hlength => forall_congr' fun seq => ?_
    refine forall₂_congr fun hseq hvector => ?_
    have hsame := h.pooled group hfits hgroup seq group[seq] (List.getElem?_eq_getElem hseq)
    have halone := hdecode.mp hgroup group[seq] (List.getElem_mem hseq)
    simp [pooled, hsame, halone]

/-- The vectors of texts are those of their tokens, each alone. -/
theorem embed_eq_ok_iff (h : Independent r.model) {texts : List Text} {vectors : List (List F)} :
    r.embed sqrt texts = .ok vectors ↔ List.Forall₂ (fun text vector =>
      ∃ tokens, r.tokenise text = .ok tokens ∧ Alone sqrt r tokens vector) texts vectors := by
  have hgroups {tokenised : List (List Token)}
      (htokenised : collect r.tokenise texts = .ok tokenised) :
      embedFrom sqrt r [] [] 0 tokenised = .ok vectors ↔
        List.Forall₂ (Alone sqrt r) tokenised vectors := by
    have hloop : embedFrom sqrt r [] [] 0 tokenised =
        extendAll (decodeGroup sqrt r) [] (pack isFull [] tokenised) := embedFrom_eq [] [] tokenised
    have hfits := fits_of_mem_pack fun tokens htokens => by
      obtain ⟨text, -, htext⟩ := exists_of_forall₂ (collect_eq_ok_iff.mp htokenised) htokens
      exact (length_tokenise htext).trans (min_le_left _ _)
    rw [hloop, extendAll_eq_ok_iff fun g hg _ => decodeGroup_eq_ok_iff h (hfits g hg), flatten_pack]
    simp
  rw [← exists_forall₂_iff, Runtime.embed]
  simp only [← collect_eq_ok_iff]
  cases htokenised : collect r.tokenise texts with
  | error e => exact iff_of_false (fun h => nomatch h) (fun ⟨_, h, _⟩ => nomatch h)
  | ok tokenised =>
    dsimp only
    rw [hgroups htokenised]
    constructor
    · exact fun hall => ⟨tokenised, rfl, hall⟩
    · rintro ⟨tokenised', htokenised', hall⟩
      cases htokenised'
      exact hall

theorem embed_singleton_iff (h : Independent r.model) {text : Text} {vector : List F} :
    r.embed sqrt [text] = .ok [vector] ↔
      ∃ tokens, r.tokenise text = .ok tokens ∧ Alone sqrt r tokens vector := by
  rw [embed_eq_ok_iff h]
  simp

/-- A slice of passages is embedded as each of its passages alone. -/
theorem embedPassages_eq_ok_iff {e : LlamaEmbedder Token F} (h : Independent e.runtime.model)
    {passages : List Text} {vectors : List (List F)} :
    e.embedPassages sqrt passages = .ok vectors ↔ List.Forall₂ (fun passage vector =>
      e.embedPassages sqrt [passage] = .ok [vector]) passages vectors := by
  have hembed {texts : List Text} : e.embed sqrt texts = e.runtime.embed sqrt texts := by
    unfold LlamaEmbedder.embed
    split_ifs with hempty
    · rw [List.isEmpty_iff.mp hempty]
      rfl
    · rfl
  simp only [LlamaEmbedder.embedPassages, hembed, List.map_cons, List.map_nil,
    embed_singleton_iff h]
  rw [embed_eq_ok_iff h, List.forall₂_map_left_iff]

/-- Batching does not show: each passage has the vector it has alone, whatever slice and whatever
group it is embedded in. The groups hold all the sequences in their order, none is empty, and each
fits one physical batch. -/
theorem batching_invisible (e : LlamaEmbedder Token F) (h : Independent e.runtime.model) :
    (∀ passages vectors, Embed.embedPassages (e.embedPassages sqrt) passages = .ok vectors ↔
      List.Forall₂ (fun passage vector => e.embedPassages sqrt [passage] = .ok [vector])
        passages vectors) ∧
    (∀ texts tokenised, collect e.runtime.tokenise texts = .ok tokenised →
      e.runtime.embed sqrt texts =
          extendAll (decodeGroup sqrt e.runtime) [] (pack isFull [] tokenised) ∧
        (∀ tokens ∈ tokenised, tokens.length ≤ e.runtime.truncateTo) ∧
        (pack isFull [] tokenised).flatten = tokenised ∧
        ∀ g ∈ pack isFull [] tokenised, g ≠ [] ∧ Fits g) := by
  refine ⟨fun passages vectors => ?_, fun texts tokenised htokenised => ?_⟩
  · exact Embed.embedPassages_eq_ok_iff fun slice vectors => embedPassages_eq_ok_iff h
  · have hshort : ∀ tokens ∈ tokenised, tokens.length ≤ e.runtime.truncateTo := by
      intro tokens htokens
      obtain ⟨text, -, htext⟩ := exists_of_forall₂ (collect_eq_ok_iff.mp htokenised) htokens
      exact length_tokenise htext
    refine ⟨?_, hshort, flatten_pack, fun g hg => ⟨ne_nil_of_mem_pack hg, ?_⟩⟩
    · rw [Runtime.embed, htokenised]
      exact embedFrom_eq [] [] tokenised
    · exact fits_of_mem_pack (fun tokens htokens =>
        (hshort tokens htokens).trans (min_le_left _ _)) g hg

end Scalars

/-- A model of letters: a text is its letters between two marks, and a sequence points one way where
it is as long as the model takes, and the other where it is shorter. -/
def letters : LlamaModel Char ℤ where
  strToToken text := .ok ('^' :: text ++ ['$'])
  tokenEos := '$'
  nCtxTrain := 4
  trained := by decide
  decode _ := none
  embeddingsSeqIth group seq :=
    .ok (if ((group[seq]?).getD []).length = 4 then [1, 0] else [0, 1])

/-- Forty passages, and forty that are cut: more than one group takes. -/
def eighty : List Text := List.replicate 40 ['a'] ++ List.replicate 40 ['b', 'c', 'd']

/-- The second kind is embedded in both groups, and each passage as it is alone. -/
theorem letters_together :
    (collect (Runtime.tokenise (⟨letters, 2⟩ : Runtime Char ℤ)) eighty).toOption.map
      (fun tokenised => (pack isFull [] tokenised).map List.length) = some [64, 16] ∧
    Embed.embedPassages (LlamaEmbedder.embedPassages id ⟨⟨letters, 2⟩, []⟩) eighty =
      .ok (List.replicate 40 [0, 1] ++ List.replicate 40 [1, 0]) := by
  have h : Independent letters := by
    refine ⟨fun _ _ => by simp [letters], fun group _ _ seq tokens hseq => ?_⟩
    simp [letters, hseq]
  refine ⟨by decide, ((batching_invisible ⟨⟨letters, 2⟩, []⟩ h).1 _ _).mpr ?_⟩
  refine List.rel_append ?_ ?_ <;>
  · refine List.forall₂_iff_zip.mpr ⟨by simp, fun hmem => ?_⟩
    rw [List.zip_replicate] at hmem
    cases List.eq_of_mem_replicate hmem
    rfl

end Agmem.Embed.Llama
