import PhpInsight.CommandLine.Volume
import PhpInsight.Main
import PhpInsight.Proofs.Inheritance.Override
import PhpInsight.Proofs.Session.Questions
import PhpInsight.Proofs.Span.Family
import PhpInsight.Proofs.Session.Run
import PhpInsight.Proofs.Completion.Target
import PhpInsight.Proofs.Completion.Replacement
import PhpInsight.Proofs.Completion.Receiver
import PhpInsight.Proofs.Completion.Buffer
import PhpInsight.Proofs.Types.OwnClass
import PhpInsight.Proofs.Types.LaterCode
import PhpInsight.Proofs.Inheritance.Cycles
import PhpInsight.Proofs.Inheritance.Edited
import PhpInsight.Proofs.Inheritance.SameNamespace
import PhpInsight.Proofs.Reading.Gives
import PhpInsight.Proofs.Reading.Names
import PhpInsight.Proofs.Types.Text
import PhpInsight.Proofs.Types.Path
import PhpInsight.Proofs.Types.Declared
import PhpInsight.Proofs.Operators.Assignment
import PhpInsight.Proofs.Comments.Declared
import PhpInsight.Proofs.Types.Union
import PhpInsight.Proofs.UsageCache.Trace
import PhpInsight.Proofs.Registry
import PhpInsight.Proofs.Completion.Static
import PhpInsight.Proofs.Inheritance.Visiting
import PhpInsight.Proofs.Types.Depth
import PhpInsight.Proofs.Types.Binding
import PhpInsight.Proofs.Span.Innermost
import PhpInsight.Proofs.Completion.Fragment
import PhpInsight.Proofs.Span.Quoting
import PhpInsight.Proofs.SyntaxError.Position
import PhpInsight.Proofs.Imports.Expansion
import PhpInsight.Proofs.Lines.Columns
import PhpInsight.Proofs.Lines.Location
import PhpInsight.Proofs.Diagnostic
import PhpInsight.Proofs.Properties
import PhpInsight.Proofs.Types.Display
import PhpInsight.Proofs.Types.Canonical
import PhpInsight.Proofs.DocBlock.PropertyTag
import PhpInsight.Proofs.Completion.Tags
import PhpInsight.Proofs.Completion.Repaired
import PhpInsight.Proofs.Completion.Scan
import PhpInsight.Proofs.Types.Splitting
import PhpInsight.Proofs.Walk
import PhpInsight.Proofs.Reading.Heredoc
import PhpInsight.Proofs.Session.ClassNames
import PhpInsight.Proofs.Completion.Chain
import PhpInsight.Proofs.Comments.Blanked
