import PathGlob.Main
import PathGlob.Glob.QueuedCursor
import PathGlob.Matcher.Cache
import PathGlob.Proofs.Glob.Outline
import PathGlob.Proofs.Regex.Ends
import PathGlob.Proofs.Regex.Effort
import PathGlob.Proofs.Glob.Tracing
import PathGlob.Proofs.Regex.Reading
import PathGlob.Proofs.Glob.Operand
import PathGlob.Proofs.Glob.Flat
import PathGlob.Proofs.Glob.Meaning
import PathGlob.Proofs.Glob.Fragment
import PathGlob.Proofs.Matcher.Single
import PathGlob.Proofs.Matcher.Answered
import PathGlob.Proofs.Matcher.Wildcard
import PathGlob.Proofs.Glob.Negation
import PathGlob.Proofs.Matcher.Complement
import PathGlob.Proofs.Glob.Outlook
import PathGlob.Proofs.Matcher.Hidden
import PathGlob.Proofs.Brace.Limit
import PathGlob.Proofs.Brace.Range
import PathGlob.Proofs.Brace.Tree
import PathGlob.Proofs.Glob.Anchors
import PathGlob.Proofs.Matcher.Coherence
import PathGlob.Proofs.Regex.Language
import PathGlob.Proofs.Glob.Ordinary
import PathGlob.Proofs.Matcher.Framed
import PathGlob.Proofs.Regex.Ranges
import PathGlob.Proofs.Glob.BracketSet
import PathGlob.Proofs.Glob.Readable
import PathGlob.Proofs.Matcher.Bracketed
import PathGlob.Proofs.Brace.Length
import PathGlob.Proofs.Glob.Sigils
import PathGlob.Proofs.Matcher.Expanded
import PathGlob.Proofs.Matcher.Folding
import PathGlob.Proofs.Matcher.Dotted
import PathGlob.Proofs.Matcher.Guarded
import PathGlob.Proofs.Matcher.Excluded
import PathGlob.Proofs.Matcher.Quoted
import PathGlob.Proofs.Matcher.Spelled
import PathGlob.Proofs.Matcher.Masked
import PathGlob.Proofs.Matcher.Hyphenated
import PathGlob.Proofs.Brace.Kept
import PathGlob.Proofs.Matcher.Escaped
import PathGlob.Proofs.Brace.Edges
import PathGlob.Proofs.Glob.Components
import PathGlob.Proofs.Matcher.OwnText
import PathGlob.Proofs.Regex.Agreement
import PathGlob.Proofs.Glob.Preceded
import PathGlob.Proofs.Glob.Unhidden
import PathGlob.Proofs.Matcher.EscapedDot
import PathGlob.Proofs.Brace.Worklist
import PathGlob.Proofs.Glob.Moves
import PathGlob.Proofs.Glob.Paired
import PathGlob.Proofs.Glob.Linked
import PathGlob.Proofs.Glob.Unclosed
import PathGlob.Proofs.Matcher.Respelled
import PathGlob.Proofs.Matcher.Strict
import PathGlob.Proofs.Matcher.Starred
import PathGlob.Proofs.Regex.Walks
import PathGlob.Proofs.Regex.Munch
import PathGlob.Proofs.Matcher.Repeated
import PathGlob.Proofs.Glob.Position
import PathGlob.Proofs.Glob.Lanes
import PathGlob.Proofs.CommandLine.Partition
import PathGlob.Proofs.CommandLine.Written
