import HandlebarsC.Cache.Duplicate
import HandlebarsC.Cache.Layout
import HandlebarsC.Cache.Upkeep
import HandlebarsC.Compiler.Correct
import HandlebarsC.Compiler.Heights
import HandlebarsC.Compiler.Number
import HandlebarsC.Parser.AstList
import HandlebarsC.Parser.Built
import HandlebarsC.Parser.Comment
import HandlebarsC.Parser.Identity
import HandlebarsC.Parser.Scanners
import HandlebarsC.Parser.Texts
import HandlebarsC.Parser.Unambiguous
import HandlebarsC.Render.Errors
import HandlebarsC.Render.Escaped
import HandlebarsC.Render.Modes
import HandlebarsC.Render.Relocated
import HandlebarsC.Render.Visible
import HandlebarsC.Serializer.Relocation
import HandlebarsC.Stack.Protected
import HandlebarsC.Strings.Hashes
import HandlebarsC.Strings.Strip
import HandlebarsC.Value.Flags
import HandlebarsC.Value.Yaml
import HandlebarsC.Vm.Conditional
import HandlebarsC.Vm.Delimiters
import HandlebarsC.Vm.Elements
import HandlebarsC.Vm.Hash
import HandlebarsC.Vm.PartialBlock
