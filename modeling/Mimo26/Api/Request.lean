import Mathlib.Algebra.Order.Floor.Ring
import Mathlib.Data.Rat.Floor
import Mimo26.Api.Types
import Mimo26.Library.Result
import Mimo26.Library.Search

/-!
# Chat requests

The decoding of a request body (`types.rs`): messages with their images, tools and the sampling
parameters. An image stands in a message's text as a marker between two reserved characters
(`engine.rs`). Decoding the image itself is a parameter, `ImageCodec`.

## Main definitions

* `ImageInput`, `imageMarker` — an image, and the text it stands as
* `flattenContent`, `parseMessage`, `ChatRequest.parse` — the decoding

## Main results

* `adds_flattenContent`, `holds_parse` — the marks in the contents of a request are its images, in
  order
-/

namespace Mimo26

namespace Api

open Result Search

/-- What a request asks of an `f64`: its value where it is finite, and `n as u64`. -/
class Fp64Value (F : Type) extends Fp64 F where
  value : F → Option ℚ
  asU64 : F → ℕ

instance : Fp64Value ℤ where
  value n := some n
  asU64 n := min n.toNat (2 ^ 64 - 1)

structure ApiError where
  status : ℕ
  message : String
  code : String
  deriving DecidableEq, Repr

def ApiError.badRequest (msg : String) : ApiError := ⟨400, msg, "invalid_request_error"⟩

/-- A tool call of the history, as it is on the wire. -/
structure ToolCall where
  id : Text
  type : Text
  name : Text
  arguments : Text
  deriving DecidableEq

structure ChatMessage where
  role : Text
  /-- The text content, images as their markers. -/
  content : Text
  toolCalls : List ToolCall
  deriving DecidableEq

/-! ### Images -/

structure RgbImage where
  width : UInt32
  height : UInt32
  data : List UInt8
  deriving DecidableEq

/-- The image crate: what a data URL decodes to, and the places of an image in the prompt. -/
structure ImageCodec where
  decodeDataUrl : Text → Except String RgbImage
  mergedTokens : UInt32 → UInt32 → Except String UInt64

/-- An image of a request. -/
structure ImageInput where
  hash : UInt64
  tokens : UInt64
  width : UInt32
  height : UInt32
  rgb : List UInt8
  deriving DecidableEq

def imageOpen : Char := '\ufdd0'

def imageClose : Char := '\ufdd1'

/-- `{:016x}`. -/
def hex016 (n : ℕ) : Text :=
  let digits := Nat.toDigits 16 n
  List.replicate (16 - digits.length) '0' ++ digits

/-- The text between the reserved characters of an image. -/
def markerBody (img : ImageInput) : Text :=
  hex016 img.hash.toNat ++ ':' :: Nat.toDigits 10 img.tokens.toNat

/-- The text an image stands as in a message. -/
def imageMarker (img : ImageInput) : Text := imageOpen :: markerBody img ++ [imageClose]

/-- Client text without the reserved characters. -/
def clean (s : Text) : Text := s.filter fun c => c ≠ imageOpen ∧ c ≠ imageClose

def imageTypes : List Text := ["image_url".toList, "input_image".toList, "image".toList]

def mediaTypes : List Text :=
  ["input_audio".toList, "audio".toList, "input_video".toList, "video".toList]

/-- Images kept for each request, the newest ones. -/
def maxImages : ℕ := 16

/-- The images met while the messages are parsed. -/
structure Images where
  seen : ℕ
  keepFrom : ℕ
  out : List ImageInput

def fnv1a (bytes : List UInt8) : UInt64 :=
  bytes.foldl (fun h b => (h ^^^ b.toUInt64) * 0x00000100000001b3) 0xcbf29ce484222325

variable {F : Type}

/-- The URL of an image part. -/
def imageUrl (part : Json F) : Option Text := do
  let v ← part.get "image_url" <|> part.get "image"
  v.asStr <|> (v.get "url").bind Json.asStr

def decodeImage (codec : ImageCodec) (url : Text) : Except ApiError ImageInput := do
  demand ("data:".toList <+: url) (.badRequest
    "image URLs are not fetched; send the image inline as a data URL (data:image/png;base64,...)")
  let img ← (codec.decodeDataUrl url).mapError fun e => .badRequest s!"image: {e}"
  let tokens ← (codec.mergedTokens img.height img.width).mapError fun e =>
    .badRequest s!"image: {e}"
  return ⟨fnv1a (String.ofList url).toUTF8.toList, tokens, img.width, img.height, img.data⟩

def omitted : Text :=
  s!"[image omitted: only the {maxImages} most recent images are sent]".toList

/-- The type of a part. -/
def partType (part : Json F) : Text := ((part.get "type").bind Json.asStr).getD []

/-- One part of a content, after `text`. -/
def pushPart (codec : ImageCodec) (text : Text) (images : Images) (part : Json F) :
    Except ApiError (Text × Images) := do
  let ty := String.ofList (partType part)
  demand (partType part ∉ mediaTypes) (.badRequest
    s!"content part type \"{ty}\" is not supported (audio and video are rejected)")
  if partType part ∈ imageTypes then
    let seen := { images with seen := images.seen + 1 }
    if images.seen < images.keepFrom then return (text ++ omitted, seen)
    match imageUrl part with
    | none => throw (.badRequest "an image part has no URL")
    | some url =>
      let img ← decodeImage codec url
      return (text ++ imageMarker img, { seen with out := images.out ++ [img] })
  else
    match (part.get "text").bind Json.asStr with
    | some t => return (text ++ clean t, images)
    | none => return (text, images)

/-- The text of a message, and the images after it. -/
def flattenContent (codec : ImageCodec) (content : Json F) (images : Images) :
    Except ApiError (Text × Images) :=
  match content with
  | .str s => return (clean s, images)
  | .array parts => parts.foldlM (fun (text, images) part => pushPart codec text images part)
    ([], images)
  | .null => return ([], images)
  | _ => throw (.badRequest "message content must be a string or an array of parts")

/-- The image parts of a request, counted before parsing. -/
def countImages (messages : List (Json F)) : ℕ :=
  (messages.flatMap fun m => ((m.get "content").bind Json.asArray).getD []).countP fun part =>
    decide (partType part ∈ imageTypes)

/-! ### Messages and tools -/

/-- The value of a key of an object. -/
def lookup (pairs : List (Text × Json F)) (key : String) : Option (Json F) :=
  (pairs.find? fun p => p.1 = key.toList).map Prod.snd

def parseToolCall (tc : Json F) : Except ApiError ToolCall := do
  match (tc.get "function").bind Json.asObject with
  | none => throw (.badRequest "a message tool_call is missing its function object")
  | some fields =>
    match (lookup fields "name").bind Json.asStr with
    | none => throw (.badRequest "messages[].tool_calls[] is missing a function name")
    | some name =>
      demand (name ≠ []) (.badRequest "messages[].tool_calls[] is missing a function name")
      let arguments := ((lookup fields "arguments").bind Json.asStr).getD []
      let id := ((tc.get "id").bind Json.asStr).getD []
      return ⟨id, "function".toList, name, arguments⟩

def parseMessage (codec : ImageCodec) (v : Json F) (images : Images) :
    Except ApiError (ChatMessage × Images) := do
  let role := ((v.get "role").bind Json.asStr).getD []
  let (content, images) ←
    match v.get "content" with
    | some c => flattenContent codec c images
    | none => pure ([], images)
  let toolCalls ← (((v.get "tool_calls").bind Json.asArray).getD []).mapM parseToolCall
  return (⟨role, content, toolCalls⟩, images)

/-- The messages in order, with the images before them. -/
def parseMessages (codec : ImageCodec) : List (Json F) → Images →
    Except ApiError (List ChatMessage × Images)
  | [], images => return ([], images)
  | v :: vs, images => do
    let (m, images) ← parseMessage codec v images
    let (ms, images) ← parseMessages codec vs images
    return (m :: ms, images)

def parseTool (v : Json F) : Except ApiError (Tool F) := do
  let type := ((v.get "type").bind Json.asStr).getD "function".toList
  match (v.get "function").bind Json.asObject with
  | none => throw (.badRequest "a tool is missing its function object")
  | some fields =>
    return {
      type
      function := {
        name := ((lookup fields "name").bind Json.asStr).getD []
        description := (lookup fields "description").bind Json.asStr
        parameters := lookup fields "parameters" }
      raw := v }

/-! ### The request -/

structure ChatRequest (F : Type) where
  model : Text
  messages : List ChatMessage
  tools : List (Tool F)
  temperature : Option F
  topP : Option F
  topK : Option ℕ
  minP : Option F
  seed : Option ℕ
  maxTokens : Option ℕ
  stop : List Text
  stream : Bool
  includeUsage : Bool
  enableThinking : Bool
  parallelToolCalls : Bool
  images : List ImageInput

section Numbers

variable [Fp64Value F]

/-- A finite number of the body, with its value. -/
def number (body : Json F) (name : String) : Except ApiError (Option (F × ℚ)) :=
  match body.get name with
  | none | some .null => return none
  | some v =>
    match v.asF64.bind fun x => (Fp64Value.value x).map (x, ·) with
    | some x => return some x
    | none => throw (.badRequest s!"{name} must be a finite number")

/-- The number, if `ok` holds of its value. -/
def numberIn (body : Json F) (name : String) (ok : ℚ → Bool) (message : String) :
    Except ApiError (Option F) := do
  let x ← number body name
  demand (∀ p ∈ x, ok p.2) (.badRequest message)
  return x.map Prod.fst

def parseTemperature (body : Json F) : Except ApiError (Option F) :=
  numberIn body "temperature" (fun t => 0 ≤ t ∧ t ≤ 2) "temperature must be between 0 and 2"

def parseTopP (body : Json F) : Except ApiError (Option F) :=
  numberIn body "top_p" (fun p => 0 < p ∧ p ≤ 1) "top_p must be greater than 0 and at most 1"

def parseMinP (body : Json F) : Except ApiError (Option F) :=
  numberIn body "min_p" (fun p => 0 ≤ p ∧ p ≤ 1) "min_p must be between 0 and 1"

/-- `q as u64` of a whole number that is not negative. -/
def asU64 (q : ℚ) : ℕ := min ⌊q⌋.toNat (2 ^ 64 - 1)

def parseTopK (body : Json F) : Except ApiError (Option ℕ) := do
  match ← number body "top_k" with
  | none => return none
  | some (_, k) =>
    demand (k.den = 1 ∧ -1 ≤ k) (.badRequest "top_k must be -1, 0 or a positive integer")
    return if k ≤ 0 then none else some (asU64 k)

/-- A negative seed is its two's complement. -/
def parseSeed (body : Json F) : Except ApiError (Option ℕ) := do
  match ← number body "seed" with
  | none => return none
  | some (_, x) =>
    demand (x.den = 1) (.badRequest "seed must be an integer")
    return some (if x < 0 then ((max x.num (-2 ^ 63)) % 2 ^ 64).toNat else asU64 x)

end Numbers

/-- A constrained choice of tools is refused. -/
def checkToolChoice (body : Json F) : Except ApiError Unit :=
  match body.get "tool_choice" with
  | none | some .null => return ()
  | some (.str s) => demand (s = "auto".toList ∨ s = "none".toList)
      (.badRequest "constrained tool_choice is not yet supported")
  | some _ => throw (.badRequest "constrained tool_choice is not yet supported")

def parseTools (body : Json F) : Except ApiError (List (Tool F)) :=
  match body.get "tools" with
  | some (.array ts) => ts.mapM parseTool
  | _ => return []

def parseStop (body : Json F) : List Text :=
  match body.get "stop" with
  | some (.str s) => [s]
  | some (.array a) => a.filterMap Json.asStr
  | _ => []

def ChatRequest.parse [Fp64Value F] (codec : ImageCodec) (body : Json F) :
    Except ApiError (ChatRequest F) := do
  let model := ((body.get "model").bind Json.asStr).getD []
  match (body.get "messages").bind Json.asArray with
  | none => throw (.badRequest "missing messages array")
  | some ms =>
    let (messages, images) ← parseMessages codec ms ⟨0, countImages ms - maxImages, []⟩
    demand (messages ≠ []) (.badRequest "messages must not be empty")
    let tools ← parseTools body
    checkToolChoice body
    let temperature ← parseTemperature body
    let topP ← parseTopP body
    let minP ← parseMinP body
    let topK ← parseTopK body
    let seed ← parseSeed body
    return {
      model, messages, tools, temperature, topP, topK, minP, seed
      maxTokens := ((body.get "max_tokens").bind Json.asF64).map Fp64Value.asU64
      stop := parseStop body
      stream := ((body.get "stream").bind Json.asBool).getD false
      includeUsage := (((body.get "stream_options").bind (Json.get · "include_usage")).bind
        Json.asBool).getD false
      enableThinking :=
        (((body.get "chat_template_kwargs").bind (Json.get · "enable_thinking")).bind
        Json.asBool).getD false
      parallelToolCalls := ((body.get "parallel_tool_calls").bind Json.asBool).getD true
      images := images.out }

/-! ### The images of a content -/

/-- A text holds the markers of the images, in order, and no other opening character. -/
inductive Marked : Text → List ImageInput → Prop
  | text {t : Text} : imageOpen ∉ t → Marked t []
  | image {t rest : Text} {imgs : List ImageInput} (img : ImageInput) : imageOpen ∉ t →
    Marked rest imgs → Marked (t ++ (imageMarker img ++ rest)) (img :: imgs)

theorem Marked.append {t t' : Text} {imgs imgs' : List ImageInput} (h : Marked t imgs)
    (h' : Marked t' imgs') : Marked (t ++ t') (imgs ++ imgs') := by
  induction h with
  | @text t ht =>
    have hnot {s : Text} (hs : imageOpen ∉ s) : imageOpen ∉ t ++ s := by
      simp [ht, hs]
    cases h' with
    | text ht' => exact .text (hnot ht')
    | image img ht' hrest =>
      rw [← List.append_assoc]
      exact .image img (hnot ht') hrest
  | image img ht _ ih =>
    rw [List.append_assoc, List.append_assoc]
    exact .image img ht ih

theorem imageOpen_notIn_clean (s : Text) : imageOpen ∉ clean s := by
  simp [clean]

variable {codec : ImageCodec}

/-- The image takes the places the image crate gives it. -/
def Decoded (codec : ImageCodec) (img : ImageInput) : Prop :=
  codec.mergedTokens img.height img.width = .ok img.tokens

theorem decoded_decodeImage {url : Text} {img : ImageInput} (h : decodeImage codec url = .ok img) :
    Decoded codec img := by
  obtain ⟨-, -, h⟩ := bind_eq_ok.mp h
  obtain ⟨rgb, -, h⟩ := bind_eq_ok.mp h
  obtain ⟨tokens, htokens, h⟩ := bind_eq_ok.mp h
  obtain rfl := Except.ok.inj h
  rw [Decoded]
  cases hmerged : codec.mergedTokens rgb.height rgb.width with
  | error e =>
    rw [hmerged] at htokens
    exact nomatch htokens
  | ok n =>
    rw [hmerged] at htokens
    exact congrArg Except.ok (Except.ok.inj htokens)

/-- What is added to a text and to the images. -/
def Adds (codec : ImageCodec) (text : Text) (images : Images) (text' : Text) (images' : Images) :
    Prop :=
  ∃ t imgs, text' = text ++ t ∧ images'.out = images.out ++ imgs ∧ Marked t imgs ∧
    ∀ img ∈ imgs, Decoded codec img

theorem adds_text (text : Text) (images images' : Images)
    (hout : images'.out = images.out) {t : Text}
    (ht : imageOpen ∉ t) : Adds codec text images (text ++ t) images' :=
  ⟨t, [], rfl, hout.trans (List.append_nil _).symm, .text ht, fun _ h => absurd h List.not_mem_nil⟩

theorem Adds.refl (text : Text) (images : Images) : Adds codec text images text images := by
  have hadds : Adds codec text images (text ++ []) images :=
    adds_text text images images rfl List.not_mem_nil
  rwa [List.append_nil] at hadds

theorem Adds.trans {text text' text'' : Text} {images images' images'' : Images}
    (h : Adds codec text images text' images') (h' : Adds codec text' images' text'' images'') :
    Adds codec text images text'' images'' := by
  obtain ⟨t, imgs, rfl, hout, hmarked, hdecoded⟩ := h
  obtain ⟨t', imgs', rfl, hout', hmarked', hdecoded'⟩ := h'
  refine ⟨t ++ t', imgs ++ imgs', List.append_assoc _ _ _, ?_, hmarked.append hmarked', ?_⟩
  · rw [hout', hout, List.append_assoc]
  · exact List.forall_mem_append.mpr ⟨hdecoded, hdecoded'⟩

theorem adds_pushPart {text : Text} {images : Images} {part : Json F} {x : Text × Images}
    (h : pushPart codec text images part = .ok x) : Adds codec text images x.1 x.2 := by
  obtain ⟨-, -, h⟩ := bind_eq_ok.mp h
  by_cases himage : partType part ∈ imageTypes
  · rw [if_pos himage] at h
    by_cases hkeep : images.seen < images.keepFrom
    · rw [if_pos hkeep] at h
      obtain rfl := Except.ok.inj h
      exact adds_text _ _ _ rfl (by decide)
    · rw [if_neg hkeep] at h
      cases hurl : imageUrl part with
      | none =>
        rw [hurl] at h
        exact nomatch h
      | some url =>
        rw [hurl] at h
        obtain ⟨img, himg, h⟩ := bind_eq_ok.mp h
        obtain rfl := Except.ok.inj h
        refine ⟨imageMarker img, [img], rfl, rfl, ?_, ?_⟩
        · have hmarked := Marked.image img (t := []) List.not_mem_nil (.text List.not_mem_nil)
          rwa [List.append_nil] at hmarked
        · exact List.forall_mem_singleton.mpr (decoded_decodeImage himg)
  · rw [if_neg himage] at h
    split at h
    · obtain rfl := Except.ok.inj h
      exact adds_text _ _ _ rfl (imageOpen_notIn_clean _)
    · obtain rfl := Except.ok.inj h
      exact .refl text images

theorem adds_parts {parts : List (Json F)} {text : Text} {images : Images} {x : Text × Images}
    (h : parts.foldlM (fun (acc : Text × Images) part => pushPart codec acc.1 acc.2 part)
      (text, images) = .ok x) : Adds codec text images x.1 x.2 := by
  induction parts generalizing text images with
  | nil =>
    obtain rfl := Except.ok.inj h
    exact .refl _ _
  | cons part parts ih =>
    rw [List.foldlM_cons] at h
    obtain ⟨mid, hmid, hrest⟩ := bind_eq_ok.mp h
    exact (adds_pushPart hmid).trans (ih hrest)

/-- **The text of a content** holds the markers of its images, and nothing else in their place. -/
theorem adds_flattenContent {content : Json F} {images : Images} {x : Text × Images}
    (h : flattenContent codec content images = .ok x) : Adds codec [] images x.1 x.2 := by
  cases content with
  | null =>
    obtain rfl := Except.ok.inj h
    exact .refl [] images
  | bool b => exact nomatch h
  | num n => exact nomatch h
  | str s =>
    obtain rfl := Except.ok.inj h
    exact adds_text [] images images rfl (imageOpen_notIn_clean s)
  | array parts => exact adds_parts h
  | object pairs => exact nomatch h

theorem adds_parseMessage {v : Json F} {images : Images} {x : ChatMessage × Images}
    (h : parseMessage codec v images = .ok x) : Adds codec [] images x.1.content x.2 := by
  rw [parseMessage] at h
  cases hcontent : v.get "content" with
  | none =>
    rw [hcontent] at h
    obtain ⟨y, hy, h⟩ := bind_eq_ok.mp h
    obtain ⟨calls, -, h⟩ := bind_eq_ok.mp h
    obtain rfl := Except.ok.inj h
    obtain rfl := Except.ok.inj hy
    exact .refl [] images
  | some c =>
    rw [hcontent] at h
    obtain ⟨y, hy, h⟩ := bind_eq_ok.mp h
    obtain ⟨calls, -, h⟩ := bind_eq_ok.mp h
    obtain rfl := Except.ok.inj h
    exact adds_flattenContent hy

/-- The images that the contents of messages hold, message by message. -/
def Holds (messages : List ChatMessage) (imgs : List (List ImageInput)) : Prop :=
  List.Forall₂ (fun m is => Marked m.content is) messages imgs

theorem holds_parseMessages {vs : List (Json F)} {images : Images} {x : List ChatMessage × Images}
    (h : parseMessages codec vs images = .ok x) :
    ∃ imgs, Holds x.1 imgs ∧ x.2.out = images.out ++ imgs.flatten ∧
      ∀ img ∈ imgs.flatten, Decoded codec img := by
  induction vs generalizing images x with
  | nil =>
    obtain rfl := Except.ok.inj h
    exact ⟨[], .nil, (List.append_nil _).symm, fun _ h => absurd h List.not_mem_nil⟩
  | cons v vs ih =>
    obtain ⟨y, hy, h⟩ := bind_eq_ok.mp h
    obtain ⟨z, hz, h⟩ := bind_eq_ok.mp h
    obtain rfl := Except.ok.inj h
    obtain ⟨t, is, ht, hout, hmarked, hdecoded⟩ := adds_parseMessage hy
    obtain ⟨imgs, hholds, hout', hdecoded'⟩ := ih hz
    rw [List.nil_append] at ht
    refine ⟨is :: imgs, .cons (ht ▸ hmarked) hholds, ?_, ?_⟩
    · rw [hout', hout, List.append_assoc, List.flatten_cons]
    · rw [List.flatten_cons]
      exact List.forall_mem_append.mpr ⟨hdecoded, hdecoded'⟩

/-- **The images of a request** are those its contents hold, in order. -/
theorem holds_parse [Fp64Value F] {body : Json F} {req : ChatRequest F}
    (h : ChatRequest.parse codec body = .ok req) :
    ∃ imgs, Holds req.messages imgs ∧ req.images = imgs.flatten ∧
      ∀ img ∈ req.images, Decoded codec img := by
  rw [ChatRequest.parse] at h
  cases hmessages : (body.get "messages").bind Json.asArray with
  | none =>
    rw [hmessages] at h
    exact nomatch h
  | some ms =>
    rw [hmessages] at h
    obtain ⟨x, hx, h⟩ := bind_eq_ok.mp h
    obtain ⟨-, -, h⟩ := bind_eq_ok.mp h
    obtain ⟨tools, -, h⟩ := bind_eq_ok.mp h
    obtain ⟨-, -, h⟩ := bind_eq_ok.mp h
    obtain ⟨temperature, -, h⟩ := bind_eq_ok.mp h
    obtain ⟨topP, -, h⟩ := bind_eq_ok.mp h
    obtain ⟨minP, -, h⟩ := bind_eq_ok.mp h
    obtain ⟨topK, -, h⟩ := bind_eq_ok.mp h
    obtain ⟨seed, -, h⟩ := bind_eq_ok.mp h
    obtain rfl := Except.ok.inj h
    obtain ⟨imgs, hholds, hout, hdecoded⟩ := holds_parseMessages hx
    rw [List.nil_append] at hout
    exact ⟨imgs, hholds, hout, hout ▸ hdecoded⟩

end Api

end Mimo26
