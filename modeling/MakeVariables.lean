import MakeVariables.Model.Variable
import MakeVariables.Model.State
import MakeVariables.Model.Table
import MakeVariables.Model.Scope
import MakeVariables.Model.Special
import MakeVariables.Model.Pattern
import MakeVariables.Model.Definition
import MakeVariables.Model.Environment
import MakeVariables.Model.Parse
import MakeVariables.Table
import MakeVariables.Lookup
import MakeVariables.Scope
import MakeVariables.Exportable
import MakeVariables.Merge
import MakeVariables.Environment
import MakeVariables.Pattern
import MakeVariables.Special
import MakeVariables.PatternSet
import MakeVariables.Definition
import MakeVariables.Initialize
import MakeVariables.Json
import MakeVariables.Model.Jprint
import MakeVariables.Jprint
import MakeVariables.JprintFiles
import MakeVariables.EscapedString
import MakeVariables.Parse
import MakeVariables.TryDefinition
import MakeVariables.VariablesBuffer
import MakeVariables.MergeChains
import MakeVariables.Model.Print
import MakeVariables.Print
import MakeVariables.Model.Startup
import MakeVariables.Startup
import MakeVariables.ChainLookup
import MakeVariables.ScopeLookup
import MakeVariables.TargetLookup
import MakeVariables.Reader
import MakeVariables.PrintSet
import MakeVariables.BlockRuns
