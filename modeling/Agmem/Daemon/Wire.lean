import Agmem.Daemon.Handshake
import Agmem.Tools.Surface
import Agmem.Json.Decode

/-! The handshake on the socket. A session writes one line of JSON and then speaks MCP; the daemon
reads that line, answers with one of its own, and hands what follows to MCP. Over the stream of
characters, with whatever either side has already written behind its line, the two come to what
they would come to if they handed each other the values, as long as the answer is not too long for
the session. -/

namespace Agmem.Daemon.Wire

open Core Tools Json

/-! ### What a session asks for -/

/-- What a run is configured with, as far as it goes into a handshake. -/
structure Config where
  dbUrl : Text
  embedder : EmbedderKind
  model : ModelKind
  api : ApiModel
  space : SpaceName
  pool : ℕ
  maxK : ℕ
  toolDesc : ToolDescriptions
  tools : ToolGroup
  pool16 : pool < 2 ^ 16
  maxK16 : maxK < 2 ^ 16
  ascending : Ascending toolDesc

structure Handshake extends Daemon.Handshake where
  space : SpaceName
  pool : ℕ
  maxK : ℕ
  toolDesc : ToolDescriptions
  tools : ToolGroup

def PROTOCOL_VERSION : ℕ := 3

def Handshake.new (release : Text) (cfg : Config) : Handshake where
  version := PROTOCOL_VERSION
  release := release
  dbUrl := cfg.dbUrl
  embedder := cfg.embedder
  model := cfg.model
  api := cfg.api
  space := cfg.space
  pool := cfg.pool
  maxK := cfg.maxK
  toolDesc := cfg.toolDesc
  tools := cfg.tools

/-! ### Spellings -/

def embedderName : EmbedderKind → Text
  | .llama => "llama".toList
  | .api => "api".toList
  | .none => "none".toList

def modelName : ModelKind → Text
  | .embeddinggemma300m => "embeddinggemma300m".toList
  | .bgeSmallEnV15 => "bge-small-en-v15".toList

def groupName : ToolGroup → Text
  | .core => "core".toList
  | .all => "all".toList

/-- A variant of an enumeration by its name. -/
def variant {α : Type*} (name : α → Text) (variants : List α) : Json → Option α
  | .str text => variants.find? fun v => decide (name v = text)
  | _ => none

/-- `ApiModel::default` -/
def ApiModel.default : ApiModel :=
  ⟨"https://api.openai.com/v1".toList, "text-embedding-3-small".toList⟩

def apiMembers (api : ApiModel) : List (Text × Json) :=
  [("url".toList, .str api.url), ("model".toList, .str api.model)]

def readApi : Json → Option ApiModel
  | .obj members =>
    match required str? "url".toList members, required str? "model".toList members with
    | some url, some model => some ⟨url, model⟩
    | _, _ => none
  | _ => none

def readSpace : Json → Option SpaceName
  | .str text => SpaceName.new? text
  | _ => none

def descJson (toolDesc : ToolDescriptions) : Json :=
  .obj (toolDesc.map fun entry => (entry.1, .str entry.2))

def readDescInto (toolDesc : ToolDescriptions) : List (Text × Json) → Option ToolDescriptions
  | [] => some toolDesc
  | (tool, .str text) :: members => readDescInto (toolDesc.insert tool text) members
  | _ :: _ => none

def readDesc : Json → Option ToolDescriptions
  | .obj members => readDescInto [] members
  | _ => none

/-! ### The handshake -/

def Handshake.members (h : Handshake) : List (Text × Json) :=
  [("version".toList, .num (.ofNat h.version)), ("release".toList, .str h.release),
    ("db_url".toList, .str h.dbUrl), ("embedder".toList, .str (embedderName h.embedder)),
    ("model".toList, .str (modelName h.model)), ("api".toList, Json.obj (apiMembers h.api)),
    ("space".toList, .str h.space.name), ("pool".toList, .num (.ofNat h.pool)),
    ("max_k".toList, .num (.ofNat h.maxK)), ("tool_desc".toList, descJson h.toolDesc),
    ("tools".toList, .str (groupName h.tools))]

def Handshake.json (h : Handshake) : Json := .obj h.members

/-- The fields that are checked, which a handshake of an older release may lack two of. -/
def readChecked (members : List (Text × Json)) : Option Daemon.Handshake :=
  match required (uint? 32) "version".toList members,
      required str? "release".toList members, required str? "db_url".toList members,
      required (variant embedderName [.llama, .api, .none]) "embedder".toList members,
      withDefault (variant modelName [.embeddinggemma300m, .bgeSmallEnV15]) .embeddinggemma300m
        "model".toList members,
      withDefault readApi ApiModel.default "api".toList members with
  | some version, some release, some dbUrl, some embedder, some model, some api =>
    some ⟨version, release, dbUrl, embedder, model, api⟩
  | _, _, _, _, _, _ => none

def Handshake.read : Json → Option Handshake
  | .obj members =>
    match readChecked members, required readSpace "space".toList members,
        required (uint? 16) "pool".toList members, required (uint? 16) "max_k".toList members,
        withDefault readDesc [] "tool_desc".toList members,
        withDefault (variant groupName [.core, .all]) .core "tools".toList members with
    | some checked, some space, some pool, some maxK, some toolDesc, some tools =>
      some ⟨checked, space, pool, maxK, toolDesc, tools⟩
    | _, _, _, _, _, _ => none
  | _ => none

def Handshake.line (h : Handshake) : Text := print h.json ++ ['\n']

/-- `read_line`: a line with its end, if it has one, and what is still in the buffer. -/
def readLine (stream : Text) : Text × Text :=
  match stream.dropWhile fun c => decide (c ≠ '\n') with
  | [] => (stream, [])
  | c :: rest => ((stream.takeWhile fun c => decide (c ≠ '\n')) ++ [c], rest)

inductive Heard where
  /-- "a probe attached and left without a handshake" -/
  | probe
  /-- "the session handshake is not the JSON this daemon expects" -/
  | notAHandshake
  | asked (handshake : Handshake)

/-- What the daemon makes of a new connection, and what it leaves for MCP. -/
def hear (stream : Text) : Heard × Text :=
  if (readLine stream).1 = [] then (.probe, (readLine stream).2)
  else
    match (parse (trim (readLine stream).1)).bind Handshake.read with
    | none => (.notAHandshake, (readLine stream).2)
    | some handshake => (.asked handshake, (readLine stream).2)

/-! ### The answer -/

def Message.text : Message → Text
  | .newerSession running asked => "the running daemon is agmem ".toList ++ running ++
      " and this session is agmem ".toList ++ asked ++
      ("; the daemon is retiring so a fresh one " ++
        "can serve this release. Sessions still attached to it need a restart.").toList
  | .olderSession running asked => "the running daemon is agmem ".toList ++ running ++
      " and this session is an older agmem ".toList ++ asked ++
      ("; the daemon keeps serving the " ++
        "newer release. Run this session from the same agmem, or pass --no-daemon.").toList
  | .unreadable running asked => "the running daemon is agmem ".toList ++ running ++
      " and this session is agmem ".toList ++ asked ++
      "; the daemon is retiring so a fresh one can serve this release.".toList
  | .protocol asked running => "this session speaks agmem daemon protocol v".toList ++
      Nat.toDigits 10 asked ++ " and the running daemon speaks v".toList ++
      Nat.toDigits 10 running ++
      ("; the daemon is an older or newer agmem. Stop it and let this " ++
        "one start a fresh daemon.").toList
  | .store running asked => "the running daemon holds ".toList ++ running ++
      " and this session asked for ".toList ++ asked ++
      ". One data dir is one store; pass --no-daemon, or point both at the same --db.".toList
  | .embedder running asked => "the running daemon embeds with ".toList ++ embedderName running ++
      " and this session asked for ".toList ++ embedderName asked ++
      (". Vectors from two models " ++
        "cannot be compared; stop the daemon or match --embedder.").toList
  | .model running asked => "the running daemon embeds with ".toList ++ modelFlag running ++
      " and this session asked for ".toList ++ modelFlag asked ++ (". Vectors from two models " ++
        "cannot be compared; stop the daemon or match --model.").toList
  | .api running asked => "the running daemon embeds with ".toList ++ running.model ++
      " at ".toList ++ running.url ++ " and this session asked for ".toList ++ asked.model ++
      " at ".toList ++ asked.url ++ (". Vectors from two models cannot be compared; stop the " ++
        "daemon or match --api-url and --api-model.").toList
  | .alreadyRetiring running => "the running daemon (agmem ".toList ++ running ++
      ") is retiring for a newer release; this session waits for the fresh one.".toList
where
  /-- The spelling that `--model` takes. -/
  modelFlag : ModelKind → Text
    | .embeddinggemma300m => "embeddinggemma-300m".toList
    | .bgeSmallEnV15 => "bge-small-en-v1.5".toList

structure AckLine where
  ok : Bool
  error : Option Text
  retiring : Bool

def AckLine.of (ack : Ack) : AckLine := ⟨ack.ok, ack.error.map Message.text, ack.retiring⟩

def AckLine.members (ack : AckLine) : List (Text × Json) :=
  ("ok".toList, .bool ack.ok) ::
    (ack.error.map fun error => ("error".toList, Json.str error)).toList ++
      [("retiring".toList, .bool ack.retiring)]

def AckLine.json (ack : AckLine) : Json := .obj ack.members

def AckLine.line (ack : AckLine) : Text := print ack.json ++ ['\n']

def readOption {α : Type*} (read : Json → Option α) : Json → Option (Option α)
  | .null => some none
  | v => (read v).map some

def AckLine.read : Json → Option AckLine
  | .obj members =>
    match required bool? "ok".toList members,
        withDefault (readOption str?) none "error".toList members,
        withDefault bool? false "retiring".toList members with
    | some ok, some error, some retiring => some ⟨ok, error, retiring⟩
    | _, _, _ => none
  | _ => none

/-- The bytes of a text. -/
def utf8Len (text : Text) : ℕ := (text.map Char.utf8Size).sum

/-- The bytes that a session reads of an answer before it gives up. -/
def MAX_ACK : ℕ := 4096

inductive AttachError where
  /-- "the shared store closed without answering the handshake. …" -/
  | closedWithoutAnswering
  /-- "the shared store's handshake ack never ended" -/
  | neverEnded
  /-- "the shared store's handshake ack is not JSON" -/
  | notJson
  | refused (why : Text)

/-- The answer, read a byte at a time up to the end of its line. -/
def readAckLine (line : Text) : Text → Except AttachError (Text × Text)
  | [] => .error .closedWithoutAnswering
  | c :: stream =>
    if c = '\n' then .ok (line, stream)
    else if MAX_ACK < utf8Len (line ++ [c]) then .error .neverEnded
    else readAckLine (line ++ [c]) stream

def UNEXPLAINED : Text := "the shared store refused the handshake without saying why".toList

/-- What the session makes of the answer, and what it leaves for MCP. -/
def attachOnce (stream : Text) : Except AttachError (Attached × Text) :=
  match readAckLine [] stream with
  | .error e => .error e
  | .ok (line, rest) =>
    match (parse line).bind AckLine.read with
    | none => .error .notJson
    | some ack =>
      if ack.ok then .ok (.serving, rest)
      else if ack.retiring then .ok (.daemonRetired, rest)
      else .error (.refused (ack.error.getD UNEXPLAINED))

/-! ### Lines -/

theorem ne_newline {c : Char} (h : Graphic c) : c ≠ '\n' := by
  rintro rfl
  exact absurd h (by decide)

theorem readLine_line {text : Text} (h : ∀ c ∈ text, Graphic c) (rest : Text) :
    readLine (text ++ '\n' :: rest) = (text ++ ['\n'], rest) := by
  have hne : ∀ c ∈ text, decide (c ≠ '\n') = true :=
    fun c hc => decide_eq_true (ne_newline (h c hc))
  unfold readLine
  rw [List.dropWhile_append_of_pos hne, List.takeWhile_append_of_pos hne]
  simp

theorem trim_line {text : Text} (h : Trimmed text) (hne : text ≠ []) :
    trim (text ++ ['\n']) = text := by
  have htrim : trim ([] ++ text ++ ['\n']) = text := trim_surrounded rfl (by decide) h hne
  simpa using htrim

/-- The text of an object begins and ends with its braces. -/
theorem trimmed_object (members : List (Text × Json)) : Trimmed (print (.obj members)) where
  head c hc := by
    rw [print, List.cons_append] at hc
    cases hc
    decide
  last c hc := by
    rw [print, List.getLast?_append_of_ne_nil _ (List.cons_ne_nil _ _)] at hc
    cases hc
    decide

theorem utf8Len_append (text more : Text) :
    utf8Len (text ++ more) = utf8Len text + utf8Len more := by
  simp [utf8Len]

/-- A line is read to its end, if it is not too long. -/
theorem readAckLine_line {text : Text} (h : ∀ c ∈ text, Graphic c) {line : Text}
    (hline : utf8Len line ≤ MAX_ACK) (rest : Text) :
    readAckLine line (text ++ '\n' :: rest) =
      if MAX_ACK < utf8Len (line ++ text) then .error .neverEnded
      else .ok (line ++ text, rest) := by
  induction text generalizing line with
  | nil => simp [readAckLine, not_lt.mpr hline]
  | cons c text ih =>
    obtain ⟨hc, htext⟩ := List.forall_mem_cons.mp h
    rw [List.cons_append, readAckLine, if_neg (ne_newline hc)]
    have hsplit : line ++ c :: text = line ++ [c] ++ text := by simp
    split_ifs with hlong hlong' hlong'
    · rfl
    · rw [hsplit, utf8Len_append] at hlong'
      omega
    · rw [ih htext (by omega), ← hsplit, if_pos hlong']
    · rw [ih htext (by omega), ← hsplit, if_neg hlong']

/-! ### Values -/

theorem variant_name {α : Type*} {name : α → Text} {variants : List α} {v : α} (hv : v ∈ variants)
    (hname : ∀ w ∈ variants, name w = name v → w = v) :
    variant name variants (.str (name v)) = some v := by
  show (variants.find? fun w => decide (name w = name v)) = some v
  cases hfind : variants.find? fun w => decide (name w = name v) with
  | none => simpa using List.find?_eq_none.mp hfind v hv
  | some w =>
    have hw : name w = name v := by simpa using List.find?_some hfind
    rw [hname w (List.mem_of_find?_eq_some hfind) hw]

/-- The keys of a handshake. -/
def keys : List Text :=
  ["version".toList, "release".toList, "db_url".toList, "embedder".toList, "model".toList,
    "api".toList, "space".toList, "pool".toList, "max_k".toList, "tool_desc".toList,
    "tools".toList]

theorem keys_nodup : keys.Nodup := by decide

theorem readApi_json (api : ApiModel) : readApi (.obj (apiMembers api)) = some api := by
  have hnodup : ((apiMembers api).map Prod.fst).Nodup := by
    show ["url".toList, "model".toList].Nodup
    decide
  have hurl : ("url".toList, Json.str api.url) ∈ apiMembers api := List.mem_cons_self
  have hmodel : ("model".toList, Json.str api.model) ∈ apiMembers api :=
    List.mem_cons_of_mem _ List.mem_cons_self
  rw [readApi, required_of_mem hnodup hurl, required_of_mem hnodup hmodel]
  rfl

theorem readSpace_json (space : SpaceName) : readSpace (.str space.name) = some space :=
  dif_pos space.slug

theorem readDescInto_json {toolDesc : ToolDescriptions} {read : ToolDescriptions}
    (h : Ascending (read ++ toolDesc)) :
    readDescInto read (toolDesc.map fun entry => (entry.1, Json.str entry.2)) =
      some (read ++ toolDesc) := by
  induction toolDesc generalizing read with
  | nil => simp [readDescInto]
  | cons entry toolDesc ih =>
    have hlast : ∀ other ∈ read, other.1 < entry.1 := fun other hother =>
      (List.pairwise_append.mp h).2.2 other hother entry List.mem_cons_self
    have hsplit : read ++ entry :: toolDesc = read ++ [entry] ++ toolDesc := by simp
    rw [List.map_cons, readDescInto, insert_last hlast, ih (by rwa [← hsplit]), ← hsplit]

/-- A handshake is read as what was written. -/
theorem read_json (release : Text) (cfg : Config) :
    Handshake.read (Handshake.new release cfg).json = some (Handshake.new release cfg) := by
  have hnodup : ((Handshake.new release cfg).members.map Prod.fst).Nodup := keys_nodup
  have hmem (i : ℕ) (member : Text × Json)
      (h : (Handshake.new release cfg).members[i]? = some member) :
      member ∈ (Handshake.new release cfg).members := List.mem_of_getElem? h
  have hembedder : variant embedderName [.llama, .api, .none] (.str (embedderName cfg.embedder)) =
      some cfg.embedder := by
    cases cfg.embedder <;> exact variant_name (by decide) (by decide)
  have hmodel : variant modelName [.embeddinggemma300m, .bgeSmallEnV15]
      (.str (modelName cfg.model)) = some cfg.model := by
    cases cfg.model <;> exact variant_name (by decide) (by decide)
  have htools : variant groupName [.core, .all] (.str (groupName cfg.tools)) = some cfg.tools := by
    cases cfg.tools <;> exact variant_name (by decide) (by decide)
  have hdesc : readDesc (descJson cfg.toolDesc) = some cfg.toolDesc :=
    readDescInto_json (show Ascending ([] ++ cfg.toolDesc) from cfg.ascending)
  have hchecked : readChecked (Handshake.new release cfg).members =
      some (Handshake.new release cfg).toHandshake := by
    rw [readChecked, required_of_mem hnodup (hmem 0 _ rfl), required_of_mem hnodup (hmem 1 _ rfl),
      required_of_mem hnodup (hmem 2 _ rfl), required_of_mem hnodup (hmem 3 _ rfl),
      withDefault_of_mem hnodup (hmem 4 _ rfl), withDefault_of_mem hnodup (hmem 5 _ rfl)]
    have hversion : uint? 32 (.num (.ofNat PROTOCOL_VERSION)) = some PROTOCOL_VERSION :=
      uint?_ofNat (by decide)
    simp only [Handshake.new, hversion, str?, hembedder, hmodel, readApi_json]
  rw [Handshake.json, Handshake.read, hchecked, required_of_mem hnodup (hmem 6 _ rfl),
    required_of_mem hnodup (hmem 7 _ rfl), required_of_mem hnodup (hmem 8 _ rfl),
    withDefault_of_mem hnodup (hmem 9 _ rfl), withDefault_of_mem hnodup (hmem 10 _ rfl)]
  simp only [Handshake.new, readSpace_json, uint?_ofNat cfg.pool16, uint?_ofNat cfg.maxK16, hdesc,
    htools]

theorem depth_json (h : Handshake) : depth h.json < RECURSION_LIMIT := by
  have hdesc : depthMembers (h.toolDesc.map fun entry => (entry.1, Json.str entry.2)) = 0 := by
    induction h.toolDesc with
    | nil => rfl
    | cons entry rest ih => simp [depthMembers, depth, ih]
  simp [Handshake.json, Handshake.members, descJson, apiMembers, depth, depthMembers, hdesc,
    RECURSION_LIMIT]

/-- The daemon reads the handshake of a session, and leaves to MCP what the session wrote after. -/
theorem hear_line (release : Text) (cfg : Config) (rest : Text) :
    hear ((Handshake.new release cfg).line ++ rest) =
      (.asked (Handshake.new release cfg), rest) := by
  have hparse := parse_print (depth_json (Handshake.new release cfg)) (rfl : skip [] = [])
  have htrim := trim_line (trimmed_object (Handshake.new release cfg).members)
    (List.cons_ne_nil _ _)
  rw [List.append_nil] at hparse
  rw [Handshake.line, List.append_assoc, List.singleton_append, hear,
    readLine_line (print_graphic _)]
  dsimp only
  rw [if_neg (List.append_ne_nil_of_right_ne_nil _ (List.cons_ne_nil _ _)), Handshake.json, htrim,
    ← Handshake.json, hparse, Option.bind_some, read_json]

theorem members_nodup (ack : AckLine) : (ack.members.map Prod.fst).Nodup := by
  obtain ⟨ok, error, retiring⟩ := ack
  cases error with
  | none =>
    show ["ok".toList, "retiring".toList].Nodup
    decide
  | some error =>
    show ["ok".toList, "error".toList, "retiring".toList].Nodup
    decide

theorem read_ackJson (ack : AckLine) : AckLine.read ack.json = some ack := by
  have hok : ("ok".toList, Json.bool ack.ok) ∈ ack.members := List.mem_cons_self
  have hretiring : ("retiring".toList, Json.bool ack.retiring) ∈ ack.members :=
    List.mem_append_right _ (List.mem_singleton_self _)
  have herror : withDefault (readOption str?) none "error".toList ack.members = some ack.error := by
    obtain ⟨ok, error, retiring⟩ := ack
    cases error with
    | none =>
      refine withDefault_of_notMem ?_
      show "error".toList ∉ ["ok".toList, "retiring".toList]
      decide
    | some error =>
      have hmem : ("error".toList, Json.str error) ∈ AckLine.members ⟨ok, some error, retiring⟩ :=
        List.mem_cons_of_mem _ List.mem_cons_self
      exact withDefault_of_mem (members_nodup _) hmem
  rw [AckLine.json, AckLine.read, required_of_mem (members_nodup ack) hok, herror,
    withDefault_of_mem (members_nodup ack) hretiring]
  rfl

theorem depth_ackJson (ack : AckLine) : depth ack.json < RECURSION_LIMIT := by
  obtain ⟨ok, error, retiring⟩ := ack
  cases error <;> simp [AckLine.json, AckLine.members, depth, depthMembers, RECURSION_LIMIT]

/-- The session reads the answer of the daemon, unless it is too long. -/
theorem attachOnce_line (ack : AckLine) (rest : Text) : attachOnce (ack.line ++ rest) =
    if MAX_ACK < utf8Len (print ack.json) then .error .neverEnded
    else if ack.ok then .ok (.serving, rest)
    else if ack.retiring then .ok (.daemonRetired, rest)
    else .error (.refused (ack.error.getD UNEXPLAINED)) := by
  have hparse := parse_print (depth_ackJson ack) (rfl : skip [] = [])
  rw [List.append_nil] at hparse
  rw [AckLine.line, List.append_assoc, List.singleton_append, attachOnce,
    readAckLine_line (print_graphic _) (Nat.zero_le _), List.nil_append]
  split_ifs with hlong
  · rfl
  all_goals
    dsimp only
    rw [hparse, Option.bind_some, read_ackJson]
    simp [*]

/-! ### The two sides -/

variable {V : Type} [LinearOrder V] (parseVersion : Text → Option V)

/-- What the daemon decides: a retiring one turns everybody away. -/
def decision (own : Daemon.Handshake) (retiring : Bool) (asked : Daemon.Handshake) :
    Except Refusal Unit :=
  if retiring then .error (Refusal.alreadyRetiring own) else own.accept parseVersion asked

/-- The daemon's side of a new connection: its answer, if it makes one, and what is left for MCP. -/
def session (own : Daemon.Handshake) (retiring : Bool) (stream : Text) : Option Ack × Text :=
  match hear stream with
  | (.asked asked, rest) =>
    (some (.of (decision parseVersion own retiring asked.toHandshake)), rest)
  | (_, rest) => (none, rest)

/-- What the session would come to with the answer in its hands. -/
def delivered (rest : Text) : Except Daemon.AttachError Attached →
    Except AttachError (Attached × Text)
  | .ok attached => .ok (attached, rest)
  | .error .closedWithoutAnswering => .error .closedWithoutAnswering
  | .error (.refused message) => .error (.refused ((message.map Message.text).getD UNEXPLAINED))

theorem attachOnce_of (ack : Ack) (rest : Text) :
    attachOnce ((AckLine.of ack).line ++ rest) =
      if MAX_ACK < utf8Len (print (AckLine.of ack).json) then .error .neverEnded
      else delivered rest (Daemon.attachOnce (some ack)) := by
  obtain ⟨ok, error, retiring⟩ := ack
  rw [attachOnce_line]
  cases ok <;> cases retiring <;> rfl

/-- The answer that takes a session is short. -/
theorem accepted_short : ¬ MAX_ACK < utf8Len (print (AckLine.of Ack.accepted).json) := by
  decide +kernel

/-- Over the socket the handshake comes to what it comes to on the values: the daemon hears all that
the session asks and decides on it, and the session hears what the daemon decided, each leaves the
MCP of the other side where it is, and only an answer of more than 4096 bytes is lost on the session.
The one that takes it never is. -/
theorem attach_over_the_socket (ownRelease askedRelease : Text) (own asked : Config)
    (retiring : Bool) (requests responses : Text) :
    hear ((Handshake.new askedRelease asked).line ++ requests) =
      (.asked (Handshake.new askedRelease asked), requests) ∧
    ∃ decided, decided = decision parseVersion (Handshake.new ownRelease own).toHandshake retiring
        (Handshake.new askedRelease asked).toHandshake ∧
      session parseVersion (Handshake.new ownRelease own).toHandshake retiring
        ((Handshake.new askedRelease asked).line ++ requests) = (some (.of decided), requests) ∧
      attachOnce ((AckLine.of (.of decided)).line ++ responses) =
        (if MAX_ACK < utf8Len (print (AckLine.of (.of decided)).json) then .error .neverEnded
        else delivered responses (Daemon.attachOnce (some (.of decided)))) ∧
      (decided = .ok () →
        attachOnce ((AckLine.of (.of decided)).line ++ responses) = .ok (.serving, responses)) := by
  refine ⟨hear_line askedRelease asked requests, _, rfl, ?_, attachOnce_of _ responses,
    fun hdecided => ?_⟩
  · rw [session, hear_line]
  · rw [hdecided, attachOnce_of, Ack.of, if_neg accepted_short]
    rfl

end Agmem.Daemon.Wire
