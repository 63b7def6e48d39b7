import GradualScript.Proofs.Syntax.Tree
import GradualScript.Proofs.Table.Dictionary
import GradualScript.Table.Basic
import GradualScript.Typing.Context
import GradualScript.Value.Conversion
import GradualScript.Proofs.Typing.Audit
import GradualScript.Proofs.Typing.Unknown
import GradualScript.Proofs.Ty.Names
import GradualScript.Proofs.Typing.Aliases
import GradualScript.Proofs.Typing.DeclaredUse
import GradualScript.Proofs.Typing.Strictness
import GradualScript.Proofs.Table.Filling
import GradualScript.Proofs.Typing.LiteralTables
import GradualScript.Proofs.Table.Growth
import GradualScript.Proofs.Table.Searches
import GradualScript.Proofs.Ty.Instances
import GradualScript.Proofs.Typing.NameEvents
import GradualScript.Proofs.Table.Keys
import GradualScript.Proofs.Ty.Texts
import GradualScript.Proofs.Typing.SelfCalls
import GradualScript.Proofs.Typing.Vocabulary
import GradualScript.Proofs.Typing.Rechecks
import GradualScript.Proofs.Table.Frames
import GradualScript.Proofs.Table.InsertionOrder
import GradualScript.Proofs.Typing.Annotations
import GradualScript.Proofs.Typing.Sessions
import GradualScript.Proofs.Typing.ExpandedTypes
import GradualScript.Proofs.Typing.Influence
import GradualScript.Proofs.Typing.OperandOrder
import GradualScript.Proofs.Typing.NormalForms
import GradualScript.Proofs.Table.Moving
import GradualScript.Proofs.Value.HashDifferences
import GradualScript.Proofs.Table.Conformance
import GradualScript.Proofs.Table.Words
import GradualScript.Proofs.Number.ShortestDecimals
