import ScriptCore.Image.Draft
import ScriptCore.Image.Listing
import ScriptCore.Literal
import ScriptCore.Main
import ScriptCore.Session
import ScriptCore.Switch
import ScriptCore.Tool.Bridge
import ScriptCore.Tool.Inspect
import ScriptCore.Proofs.Switch.Selection
import ScriptCore.Proofs.Cursor.Grammar
import ScriptCore.Proofs.Image.Format
import ScriptCore.Proofs.Image.Layout
import ScriptCore.Proofs.Image.RoundTrip
import ScriptCore.Proofs.Machine.Assembly
import ScriptCore.Proofs.Access.Writes
import ScriptCore.Proofs.Machine.Sharing
import ScriptCore.Proofs.Comparison.Exactness
import ScriptCore.Proofs.Arithmetic.Words
import ScriptCore.Proofs.Machine.Turns
import ScriptCore.Proofs.Context.Calls
import ScriptCore.Proofs.Host.Confinement
import ScriptCore.Proofs.Machine.Ranges
import ScriptCore.Proofs.Host.Replay
import ScriptCore.Proofs.Session.Memory
import ScriptCore.Proofs.Access.Subscripts
import ScriptCore.Proofs.Host.Ownership
import ScriptCore.Proofs.Session.Moves
import ScriptCore.Proofs.Session.Lifetimes
import ScriptCore.Proofs.Machine.Failures
import ScriptCore.Proofs.Session.References
import ScriptCore.Proofs.Literal.Grammar
import ScriptCore.Proofs.Arithmetic.Assignment
import ScriptCore.Proofs.Arithmetic.Expressions
import ScriptCore.Proofs.Image.Settling
import ScriptCore.Proofs.Varint.Codec
import ScriptCore.Proofs.Image.Damage
import ScriptCore.Proofs.Machine.Locality
import ScriptCore.Proofs.Session.Variables
import ScriptCore.Proofs.Switch.Fallthrough
import ScriptCore.Proofs.Session.Arrays
import ScriptCore.Proofs.Session.Tables
import ScriptCore.Proofs.Value.Sameness
import ScriptCore.Proofs.Arithmetic.Concatenation
import ScriptCore.Proofs.Text.Numerals
import ScriptCore.Proofs.Literal.RoundTrip
import ScriptCore.Proofs.UnitHash.Collisions
import ScriptCore.Proofs.Image.Listing
import ScriptCore.Proofs.Cursor.Progress
import ScriptCore.Proofs.Machine.Termination
