import OpenInterpreter.AcceptedInput
import OpenInterpreter.ApprovedPermissions
import OpenInterpreter.AssistantText
import OpenInterpreter.AuthorizationPath
import OpenInterpreter.BlockedTelemetry
import OpenInterpreter.BoundedResume
import OpenInterpreter.ChatAdjacency
import OpenInterpreter.ChatProtocol
import OpenInterpreter.EventLog
import OpenInterpreter.ExecPolicyAmend
import OpenInterpreter.HarnessEdit
import OpenInterpreter.HarnessMessages
import OpenInterpreter.HeadTail
import OpenInterpreter.HiddenTagScan
import OpenInterpreter.MandatoryDenials
import OpenInterpreter.MessageFraming
import OpenInterpreter.MetadataDenial
import OpenInterpreter.NetworkDenials
import OpenInterpreter.NetworkRules
import OpenInterpreter.NormalizedUpdate
import OpenInterpreter.OrderedCiphertext
import OpenInterpreter.OutboundBuffer
import OpenInterpreter.PatchText
import OpenInterpreter.PreservedUpdate
import OpenInterpreter.ReassembledOnce
import OpenInterpreter.Residency
import OpenInterpreter.SeekSequence
import OpenInterpreter.SemanticEquivalence
import OpenInterpreter.ServerSegments
import OpenInterpreter.ShownMessages
import OpenInterpreter.TaggedLineReading
import OpenInterpreter.TrimmedHistory
import OpenInterpreter.Utf8Stream
import OpenInterpreter.VerifiedPatch
import OpenInterpreter.WorldStateBaseline
