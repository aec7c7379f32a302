import Mimo26.Api.Json

/-!
# Request types of the chat completions API

## Main definitions

* `Tool`, `Tool.propertySchema` — a tool and the declared type of one of its parameters
-/

namespace Mimo26

namespace Api

variable {F : Type}

structure ToolFunction (F : Type) where
  name : Text
  description : Option Text
  parameters : Option (Json F)

structure Tool (F : Type) where
  type : Text
  function : ToolFunction F
  /-- The client's whole tool object, in the client's key order. -/
  raw : Json F

/-- The JSON-schema type of a top-level property, if declared. -/
def Tool.propertySchema (t : Tool F) (key : Text) : Option Text := do
  let params ← t.function.parameters
  let props ← (← params.get "properties").asObject
  let entry ← props.find? fun p => p.1 = key
  (← entry.2.get "type").asStr

end Api

end Mimo26
