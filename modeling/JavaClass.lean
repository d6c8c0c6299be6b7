import JavaClass.Frame.Op
import JavaClass.Proofs.Lookahead
import JavaClass.Proofs.Draft.RoundTrip
import JavaClass.Proofs.Session.Consistency
import JavaClass.Proofs.Session.FailedLink
import JavaClass.Proofs.Session.Constants
import JavaClass.Proofs.Session.LinkDepth
import JavaClass.Proofs.Session.LinkHierarchy
import JavaClass.Proofs.Session.LinkCourse
import JavaClass.Proofs.Session.Repetition
import JavaClass.Proofs.Pool.Representation
import JavaClass.Proofs.Pool.Deferral
import JavaClass.Proofs.Text.RoundTrip
import JavaClass.Proofs.Text.Utf8
import JavaClass.Proofs.Attribute.ExactLength
import JavaClass.Proofs.ClassFile.Context
import JavaClass.Proofs.ClassFile.Closure
import JavaClass.Proofs.Text.Readings
import JavaClass.Proofs.Text.Refusal
import JavaClass.Proofs.Frame.Invariant
import JavaClass.Proofs.Frame.Operands
import JavaClass.Proofs.Frame.Fetch
import JavaClass.Proofs.Frame.Dispatch
import JavaClass.Proofs.Frame.Lines
import JavaClass.Proofs.Bytes.Cursor
import JavaClass.Proofs.Loader.Search
