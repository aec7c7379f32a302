import Mimo26.Api.Request

/-!
# The chat template

The rendering of messages and tools into a prompt (`chat.rs` of the coordinator), and what the
engine hands to it (`api.rs`).

## Main definitions

* `tojson` — JSON as the template writes it
* `renderChat`, `engineRenderChat` — the prompt of a conversation
-/

namespace Mimo26

namespace Coordinator

open Api

/-! ### Tags -/

def imStart : Text := "<|im_start|>".toList
def imEnd : Text := "<|im_end|>".toList
def think : Text := "<think>".toList
def thinkClose : Text := "</think>".toList
def toolCallOpen : Text := "<tool_call>".toList
def toolCallClose : Text := "</tool_call>".toList
def functionOpen (name : Text) : Text := "<function=".toList ++ name ++ ['>']
def functionClose : Text := "</function>".toList
def parameterOpen (key : Text) : Text := "<parameter=".toList ++ key ++ ['>']
def parameterClose : Text := "</parameter>".toList
def toolsOpen : Text := "<tools>".toList
def toolsClose : Text := "</tools>".toList

/-! ### Messages -/

inductive Role where
  | user
  | system
  | assistant
  | tool
  deriving DecidableEq, Repr

def roleStr : Role → Text
  | .user => "user".toList
  | .system => "system".toList
  | .assistant => "assistant".toList
  | .tool => "tool".toList

variable {F : Type}

/-- A tool call to render; the arguments keep the client's order. -/
structure ChatToolCall (F : Type) where
  name : Text
  arguments : List (Text × Json F)

structure ChatMessage (F : Type) where
  role : Role
  content : Text
  reasoning : Option Text
  toolCalls : Option (List (ChatToolCall F))

structure ChatOptions where
  addGenerationPrompt : Bool
  enableThinking : Bool

/-! ### JSON -/

def writeTojsonString (s : Text) : Text := writeString s

mutual

/-- JSON with the template's separators. -/
def tojson [Fp64 F] : Json F → Text
  | .null => "null".toList
  | .bool b => (if b then "true" else "false").toList
  | .num n =>
    match Fp64.whole n with
    | some k => (toString k).toList
    | none => Fp64.display n
  | .str s => writeTojsonString s
  | .array items => '[' :: tojsonItems true items ++ [']']
  | .object pairs => '\x7b' :: tojsonPairs true pairs ++ ['\x7d']

/-- The items, with a separator before each but the first. -/
def tojsonItems [Fp64 F] : Bool → List (Json F) → Text
  | _, [] => []
  | first, v :: items => (if first then [] else [',', ' ']) ++ tojson v ++ tojsonItems false items

def tojsonPairs [Fp64 F] : Bool → List (Text × Json F) → Text
  | _, [] => []
  | first, p :: pairs =>
    (if first then [] else [',', ' ']) ++ writeTojsonString p.1 ++ ':' :: ' ' :: tojson p.2 ++
      tojsonPairs false pairs

end

variable [Fp64 F]

/-- Strings as they are, other values as JSON. -/
def renderValue : Json F → Text
  | .str s => s
  | other => tojson other

/-! ### The prompt -/

def renderParameter (p : Text × Json F) : Text :=
  parameterOpen p.1 ++ renderValue p.2 ++ parameterClose

def renderToolCalls (calls : List (ChatToolCall F)) : Text :=
  calls.flatMap fun call =>
    toolCallOpen ++ functionOpen call.name ++ call.arguments.flatMap renderParameter ++
      functionClose ++ toolCallClose

def renderTools (tools : List (Json F)) : Text :=
  "You are provided with the following tools:\n\n".toList ++ toolsOpen ++
    tools.flatMap (fun t => '\n' :: tojson t) ++ '\n' :: toolsClose

def renderMessage (m : ChatMessage F) : Text :=
  match m.role with
  | .assistant =>
    imStart ++ "assistant\n".toList ++ think ++ m.reasoning.getD [] ++ thinkClose ++ m.content ++
      renderToolCalls (m.toolCalls.getD []) ++ imEnd
  | other => imStart ++ roleStr other ++ '\n' :: m.content ++ imEnd

/-- The system turn of the tools, the messages, and the turn to generate. -/
def renderChat (messages : List (ChatMessage F)) (tools : List (Json F)) (opts : ChatOptions) :
    Text :=
  (if tools.isEmpty then [] else imStart ++ "system\n".toList ++ renderTools tools ++ imEnd) ++
    messages.flatMap renderMessage ++
    (if opts.addGenerationPrompt then
      imStart ++ "assistant\n".toList ++ (if opts.enableThinking then [] else think ++ thinkClose)
    else [])

/-! ### The engine -/

def mapRole (role : Text) : Role :=
  if role = "assistant".toList then .assistant
  else if role = "system".toList then .system
  else if role = "tool".toList then .tool
  else .user

/-- The arguments parsed; what is not an object has none. -/
def mapToolCall (tc : ToolCall) : ChatToolCall F :=
  match Json.parse tc.arguments with
  | .ok (.object pairs) => ⟨tc.name, pairs⟩
  | _ => ⟨tc.name, []⟩

def mapMessage (m : Api.ChatMessage) : ChatMessage F where
  role := mapRole m.role
  content := m.content
  reasoning := none
  toolCalls := if m.toolCalls.isEmpty then none else some (m.toolCalls.map mapToolCall)

def mapMessages (messages : List Api.ChatMessage) : List (ChatMessage F) := messages.map mapMessage

/-- The prompt of a request; a tool is written as the client sent it. -/
def engineRenderChat (messages : List Api.ChatMessage) (tools : List (Tool F)) (thinking : Bool) :
    Text :=
  renderChat (mapMessages (F := F) messages) (tools.map Tool.raw) ⟨true, thinking⟩

end Coordinator

end Mimo26
