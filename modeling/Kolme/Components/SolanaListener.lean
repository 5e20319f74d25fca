import Kolme.Components.Listener
import Kolme.Lib.Base64
import Mathlib.Data.List.Infix
import Mathlib.Data.Nat.Digits.Defs

/-!
# Messages in the log of a Solana transaction

The runtime writes one log for a whole transaction: which programs are invoked and return, and what
they log in between. The listener takes the last line of data in it for the message of the bridge
program, whichever program wrote that line.
-/

namespace Kolme.Solana

open Except

/-! ## Reading a log -/

/-- The text behind a prefix. -/
def stripPrefix? (start text : String) : Option String :=
  if start.toList <+: text.toList then some (String.ofList (text.toList.drop start.toList.length))
  else none

/-- The text contains another one. -/
def mentions (part text : String) : Bool := part.toList <:+: text.toList

def PROGRAM_DATA_LOG : String := "Program data: "

/-- Read the data of a line. -/
def readMessage (logs : List String) (data : String) :
    Except ListenerError (Option BridgeMessage) := do
  let bytes ← fromOption (.outside "base64") (Base64.decode data)
  match bridgeMessageCodec.decodeAll bytes with
  | some result => return some result
  | none =>
    if logs.any (mentions "Instruction: Initialize") then return none
    else throw (.deserialize "Solana bridge message from logs")

def extractBridgeMessageFromLogs (logs : List String) :
    Except ListenerError (Option BridgeMessage) :=
  -- Our program data should always be the last "Program data:" entry even if CPI was invoked.
  go logs.reverse
where
  go : List String → Except ListenerError (Option BridgeMessage)
    | [] => .ok none
    | log :: rest =>
      match stripPrefix? PROGRAM_DATA_LOG log with
      | none => go rest
      | some data => readMessage logs data

/-! ## Logs of transactions -/

/-- What the runtime logs. -/
inductive LogLine
  | invoke (program : Pubkey)
  | log (text : String)
  | data (fields : List Bytes)
  | consumed (used limit : Nat)
  | returned (bytes : Bytes)
  | success
  | failed (reason : String)
  | truncated
deriving DecidableEq

def base58Alphabet : List Char :=
  "123456789ABCDEFGHJKLMNPQRSTUVWXYZabcdefghijkmnopqrstuvwxyz".toList

/-- The text of an address. -/
def base58 (key : Pubkey) : String :=
  String.ofList (((Bytes.toBE 32 key.val).takeWhile (· = 0)).map (fun _ => '1') ++
    (Nat.digits 58 key.val).reverse.map fun n => base58Alphabet[n]?.getD '1')

/-- The text of a line of data. -/
def dataText (fields : List Bytes) : String := " ".intercalate (fields.map Base64.encode)

namespace LogLine

/-- The running programs, innermost first, after a line. -/
def stack (programs : List Pubkey) : LogLine → List Pubkey
  | invoke program => program :: programs
  | success | failed _ => programs.tail
  | _ => programs

/-- The text of a line, given the programs that are running. -/
def render (programs : List Pubkey) : LogLine → String
  | invoke program =>
    "Program " ++ base58 program ++ " invoke [" ++ toString (programs.length + 1) ++ "]"
  | log text => "Program log: " ++ text
  | data fields => PROGRAM_DATA_LOG ++ dataText fields
  | consumed used limit => "Program " ++ base58 (programs.headD 0) ++ " consumed " ++
      toString used ++ " of " ++ toString limit ++ " compute units"
  | returned bytes =>
    "Program return: " ++ base58 (programs.headD 0) ++ " " ++ Base64.encode bytes
  | success => "Program " ++ base58 (programs.headD 0) ++ " success"
  | failed reason => "Program " ++ base58 (programs.headD 0) ++ " failed: " ++ reason
  | truncated => "Log truncated"

end LogLine

def renderLog (programs : List Pubkey) : List LogLine → List String
  | [] => []
  | line :: lines => line.render programs :: renderLog (line.stack programs) lines

/-- The data that a program logs itself. -/
def ownData (program : Pubkey) (programs : List Pubkey) : List LogLine → List (List Bytes)
  | [] => []
  | line :: lines =>
    (match line with
      | .data fields => if programs.head? = some program then [fields] else []
      | _ => []) ++ ownData program (line.stack programs) lines

/-- The text of a line, if it is one of data. -/
def LogLine.dataText? : LogLine → Option String
  | .data fields => some (dataText fields)
  | _ => none

/-- The log of a transaction. The bridge program logs messages only, one on a line. -/
structure TransactionLog (bridge : Pubkey) where
  lines : List LogLine
  own : ∀ fields ∈ ownData bridge [] lines, ∃ msg bytes,
    bridgeMessageCodec.encode msg = some bytes ∧ fields = [bytes]

namespace TransactionLog

variable {bridge : Pubkey} (self : TransactionLog bridge)

def render : List String := renderLog [] self.lines

/-- The messages that the bridge program logged. -/
def messages : List BridgeMessage :=
  (ownData bridge [] self.lines).filterMap fun
    | [bytes] => bridgeMessageCodec.decodeAll bytes
    | _ => none

/-- The last line of data says the same as the bridge program: it reads as its only message, or it
is no message, next to an initialization, and there is none. -/
def LastSpeaks : Prop :=
  match (self.lines.filterMap LogLine.dataText?).getLast? with
  | none => True
  | some text =>
    match Base64.decode text with
    | none => False
    | some bytes =>
      match bridgeMessageCodec.decodeAll bytes with
      | some msg => self.messages = [msg]
      | none => self.messages = [] ∧ self.render.any (mentions "Instruction: Initialize") = true

end TransactionLog

/-! ## Lines of data -/

theorem stripPrefix?_append (start text : String) : stripPrefix? start (start ++ text) = some text := by
  rw [stripPrefix?, String.toList_append, if_pos (List.prefix_append ..), List.drop_left,
    String.ofList_toList]

theorem stripPrefix?_eq_none {start text : String} (h : ¬start.toList <+: text.toList) :
    stripPrefix? start text = none := if_neg h

/-- A word without the character `b` is not continued by `a` where another word is by `b`. -/
theorem not_prefix_of_separators {a b : Char} (hab : a ≠ b) {p q w r : List Char} (hp : b ∉ p)
    (hw : a ∉ w) : ¬p ++ a :: q <+: w ++ b :: r := by
  induction p generalizing w with
  | nil =>
    cases w with
    | nil => simp [List.cons_prefix_cons, hab]
    | cons c w =>
      rw [List.nil_append, List.cons_append, List.cons_prefix_cons]
      rintro ⟨rfl, -⟩
      exact hw (List.mem_cons_self ..)
  | cons c p ih =>
    cases w with
    | nil =>
      rw [List.nil_append, List.cons_append, List.cons_prefix_cons]
      rintro ⟨rfl, -⟩
      exact hp (List.mem_cons_self ..)
    | cons c' w =>
      rw [List.cons_append, List.cons_append, List.cons_prefix_cons]
      exact fun h => ih (List.not_mem_of_not_mem_cons hp) (List.not_mem_of_not_mem_cons hw) h.2

theorem toList_PROGRAM_DATA_LOG :
    PROGRAM_DATA_LOG.toList = "Program ".toList ++ ("data".toList ++ ':' :: [' ']) := by decide

/-- A text that goes on after `Program ` with a word without colons is no line of data. -/
theorem stripPrefix?_word {word rest : String} (h : ':' ∉ word.toList) :
    stripPrefix? PROGRAM_DATA_LOG ("Program " ++ word ++ (" " ++ rest)) = none := by
  refine stripPrefix?_eq_none fun hprefix => ?_
  have htext : ("Program " ++ word ++ (" " ++ rest)).toList =
      "Program ".toList ++ (word.toList ++ ' ' :: rest.toList) := by simp
  rw [toList_PROGRAM_DATA_LOG, htext, List.prefix_append_right_inj] at hprefix
  exact not_prefix_of_separators (by decide) (by decide) h hprefix

/-- Neither is one that goes on with another letter. -/
theorem stripPrefix?_letter {c : Char} {rest : List Char} {text : String} (hc : c ≠ 'd')
    (h : text.toList = "Program ".toList ++ c :: rest) :
    stripPrefix? PROGRAM_DATA_LOG text = none := by
  refine stripPrefix?_eq_none fun hprefix => ?_
  rw [toList_PROGRAM_DATA_LOG, h, List.prefix_append_right_inj] at hprefix
  exact hc (List.cons_prefix_cons.mp hprefix).1.symm

theorem colon_not_mem_base58 (key : Pubkey) : ':' ∉ (base58 key).toList := by
  have hdigit (n : Nat) : base58Alphabet[n]?.getD '1' ≠ ':' := by
    cases hn : base58Alphabet[n]? with
    | none => decide
    | some c =>
      rintro rfl
      exact absurd (List.mem_of_getElem? hn) (by decide)
  intro h
  rw [base58, String.toList_ofList, List.mem_append, List.mem_map, List.mem_map] at h
  rcases h with ⟨_, -, h⟩ | ⟨n, -, h⟩
  · exact absurd h (by decide)
  · exact hdigit n h

/-- Texts that go on with the address of a program. -/
theorem stripPrefix?_program (key : Pubkey) (rest : String) {text : String}
    (h : text.toList = ("Program " ++ base58 key ++ (" " ++ rest)).toList) :
    stripPrefix? PROGRAM_DATA_LOG text = none := by
  rw [String.toList_inj.mp h]
  exact stripPrefix?_word (colon_not_mem_base58 key)

/-- A line of data is recognized, and no other one is taken for it. -/
theorem stripPrefix?_render (programs : List Pubkey) (line : LogLine) :
    stripPrefix? PROGRAM_DATA_LOG (line.render programs) = line.dataText? := by
  cases line with
  | data fields => exact stripPrefix?_append PROGRAM_DATA_LOG (dataText fields)
  | invoke program =>
    have htext : (LogLine.invoke program).render programs =
        "Program " ++ base58 program ++ " invoke [" ++ toString (programs.length + 1) ++ "]" := rfl
    exact stripPrefix?_program program ("invoke [" ++ toString (programs.length + 1) ++ "]")
      (by rw [htext]; simp)
  | consumed used limit =>
    have htext : (LogLine.consumed used limit).render programs = "Program " ++
        base58 (programs.headD 0) ++ " consumed " ++ toString used ++ " of " ++ toString limit ++
        " compute units" := rfl
    exact stripPrefix?_program (programs.headD 0)
      ("consumed " ++ toString used ++ " of " ++ toString limit ++ " compute units")
      (by rw [htext]; simp)
  | success =>
    have htext : LogLine.success.render programs =
        "Program " ++ base58 (programs.headD 0) ++ " success" := rfl
    exact stripPrefix?_program (programs.headD 0) "success" (by rw [htext]; simp)
  | failed reason =>
    have htext : (LogLine.failed reason).render programs =
        "Program " ++ base58 (programs.headD 0) ++ " failed: " ++ reason := rfl
    exact stripPrefix?_program (programs.headD 0) ("failed: " ++ reason) (by rw [htext]; simp)
  | log text =>
    have htext : (LogLine.log text).render programs = "Program log: " ++ text := rfl
    have hlist : ((LogLine.log text).render programs).toList =
        "Program ".toList ++ 'l' :: ("og: ".toList ++ text.toList) := by
      rw [htext]
      simp
    exact stripPrefix?_letter (by decide) hlist
  | returned bytes =>
    have htext : (LogLine.returned bytes).render programs =
        "Program return: " ++ base58 (programs.headD 0) ++ " " ++ Base64.encode bytes := rfl
    have hlist : ((LogLine.returned bytes).render programs).toList = "Program ".toList ++
        'r' :: ("eturn: " ++ base58 (programs.headD 0) ++ " " ++ Base64.encode bytes).toList := by
      rw [htext]
      simp
    exact stripPrefix?_letter (by decide) hlist
  | truncated =>
    have htext : ¬PROGRAM_DATA_LOG.toList <+: "Log truncated".toList := by decide
    exact stripPrefix?_eq_none htext

theorem filterMap_renderLog (programs : List Pubkey) (lines : List LogLine) :
    (renderLog programs lines).filterMap (stripPrefix? PROGRAM_DATA_LOG) =
      lines.filterMap LogLine.dataText? := by
  induction lines generalizing programs with
  | nil => rfl
  | cons line lines ih =>
    rw [renderLog, List.filterMap_cons, List.filterMap_cons, stripPrefix?_render, ih]

/-! ## Extraction -/

section

variable {logs : List String} {text : String} {bytes : Bytes}

theorem readMessage_message {msg : BridgeMessage} (hbytes : Base64.decode text = some bytes)
    (hmsg : bridgeMessageCodec.decodeAll bytes = some msg) :
    readMessage logs text = .ok (some msg) := by
  rw [readMessage, hbytes, fromOption_some, ok_bind, hmsg]
  rfl

theorem readMessage_other (hbytes : Base64.decode text = some bytes)
    (hmsg : bridgeMessageCodec.decodeAll bytes = none) :
    readMessage logs text =
      if logs.any (mentions "Instruction: Initialize") then .ok none
      else .error (.deserialize "Solana bridge message from logs") := by
  rw [readMessage, hbytes, fromOption_some, ok_bind, hmsg]
  rfl

end

/-- The listener reads the last line of data. -/
theorem extractBridgeMessageFromLogs_eq (logs : List String) :
    extractBridgeMessageFromLogs logs =
      match (logs.filterMap (stripPrefix? PROGRAM_DATA_LOG)).getLast? with
      | none => .ok none
      | some data => readMessage logs data := by
  have hgo (l : List String) : extractBridgeMessageFromLogs.go logs l =
      match (l.filterMap (stripPrefix? PROGRAM_DATA_LOG)).head? with
      | none => .ok none
      | some data => readMessage logs data := by
    induction l with
    | nil => rfl
    | cons log rest ih =>
      rw [extractBridgeMessageFromLogs.go, List.filterMap_cons]
      cases stripPrefix? PROGRAM_DATA_LOG log with
      | none => exact ih
      | some data => rfl
  rw [extractBridgeMessageFromLogs, hgo, List.filterMap_reverse, List.head?_reverse]

namespace TransactionLog

variable {bridge : Pubkey} (self : TransactionLog bridge)

theorem texts_render : self.render.filterMap (stripPrefix? PROGRAM_DATA_LOG) =
    self.lines.filterMap LogLine.dataText? := filterMap_renderLog [] self.lines

/-- Without data there is no message. -/
theorem messages_eq_nil (h : (self.lines.filterMap LogLine.dataText?).getLast? = none) :
    self.messages = [] := by
  have hdata (programs : List Pubkey) {lines : List LogLine}
      (hnone : lines.filterMap LogLine.dataText? = []) : ownData bridge programs lines = [] := by
    induction lines generalizing programs with
    | nil => rfl
    | cons line lines ih =>
      rw [List.filterMap_cons] at hnone
      cases line with
      | data fields => cases hnone
      | invoke | log | consumed | returned | success | failed | truncated =>
        exact ih _ hnone
  rw [messages, hdata [] (List.getLast?_eq_none_iff.mp h), List.filterMap_nil]

/-- The message on the last line is extracted, whoever wrote it. -/
theorem extract_of_last {msg : BridgeMessage} {bytes : Bytes}
    (hmsg : bridgeMessageCodec.encode msg = some bytes)
    (hlast : (self.lines.filterMap LogLine.dataText?).getLast? = some (dataText [bytes])) :
    extractBridgeMessageFromLogs self.render = .ok (some msg) := by
  rw [extractBridgeMessageFromLogs_eq, self.texts_render, hlast]
  have htext : dataText [bytes] = Base64.encode bytes := by simp [dataText]
  exact readMessage_message (htext ▸ Base64.decode_encode bytes)
    (bridgeMessageCodec.decodeAll_encode hmsg)

end TransactionLog

namespace ListenerSample

def bridge : Pubkey := 7

/-- A program of the attacker. -/
def other : Pubkey := 8

/-- A deposit of nothing. -/
def deposit (id : U64) : BridgeMessage := ⟨id, 9, .regular [] []⟩

/-- A deposit that was never made. -/
def forged : BridgeMessage := ⟨1, 9, .regular [⟨5, 1000000⟩] []⟩

def bytesOf (msg : BridgeMessage) : Bytes := (bridgeMessageCodec.encode msg).getD []

/-- The attacker's program calls the bridge and then logs data of its own. -/
def forgedLines : List LogLine :=
  [.invoke other, .invoke bridge, .log "Instruction: Regular message", .data [bytesOf (deposit 1)],
    .success, .data [bytesOf forged], .success]

/-- A program calls the bridge twice. -/
def twiceLines : List LogLine :=
  [.invoke other, .invoke bridge, .data [bytesOf (deposit 1)], .success, .invoke bridge,
    .data [bytesOf (deposit 2)], .success, .success]

theorem encode_deposit (id : U64) :
    bridgeMessageCodec.encode (deposit id) = some (bytesOf (deposit id)) := rfl

theorem encode_forged : bridgeMessageCodec.encode forged = some (bytesOf forged) := rfl

def forgedLog : TransactionLog bridge where
  lines := forgedLines
  own fields h := by
    obtain rfl : fields = [bytesOf (deposit 1)] := List.mem_singleton.mp h
    exact ⟨deposit 1, _, encode_deposit 1, rfl⟩

def twiceLog : TransactionLog bridge where
  lines := twiceLines
  own fields h := by
    rcases List.mem_cons.mp h with rfl | h
    · exact ⟨deposit 1, _, encode_deposit 1, rfl⟩
    · obtain rfl : fields = [bytesOf (deposit 2)] := List.mem_singleton.mp h
      exact ⟨deposit 2, _, encode_deposit 2, rfl⟩

end ListenerSample

end Kolme.Solana
