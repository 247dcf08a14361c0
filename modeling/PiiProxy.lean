import PiiProxy.Lib.Find
import PiiProxy.Lib.Utf8
import PiiProxy.Lib.Search
import PiiProxy.Lib.Lines
import PiiProxy.Lib.Permits
import PiiProxy.Lib.PrefixFree
import PiiProxy.Lib.Machine
import PiiProxy.Base
import PiiProxy.Engine
import PiiProxy.Boundary
import PiiProxy.Redactor
import PiiProxy.RedactorRuns
import PiiProxy.RedactorUtf8
import PiiProxy.RedactText
import PiiProxy.RedactorCalls
import PiiProxy.Conservation
import PiiProxy.Tiling
import PiiProxy.MixedCase
import PiiProxy.Verbatim
import PiiProxy.ChatEvents
import PiiProxy.ChoiceText
import PiiProxy.Receipt
import PiiProxy.Detector
import PiiProxy.DetectorRuns
import PiiProxy.DetectorSafety
import PiiProxy.DetectorPayload
import PiiProxy.DetectorReceipt
import PiiProxy.StreamTask
import PiiProxy.HotSwap
import PiiProxy.Python
import PiiProxy.Transcript
import PiiProxy.TranscriptRuns
import PiiProxy.TranscriptFrame
import PiiProxy.TranscriptSound
import PiiProxy.TranscriptShutdown
import PiiProxy.DetectorLines
import PiiProxy.ReceiptAuthentic
import PiiProxy.TaskRuns
import PiiProxy.TaskShutdown
import PiiProxy.TaskPipeline
import PiiProxy.TaskProgress
import PiiProxy.Text
import PiiProxy.BudgetQueue
import PiiProxy.BudgetRuns
import PiiProxy.BudgetBounds
import PiiProxy.EnqueueRuns
import PiiProxy.Policy
import PiiProxy.ConfigText
import PiiProxy.RequestHash
import PiiProxy.TaskDelivery
import PiiProxy.TaskAborts
import PiiProxy.IpAddr
import PiiProxy.VsockHostBridge
import PiiProxy.KmsHost
import PiiProxy.Lib.JsonText
import PiiProxy.Serde
import PiiProxy.Lib.Base64
import PiiProxy.Lib.Cbor
import PiiProxy.Attestation
import PiiProxy.EndToEnd
import PiiProxy.Gateway
import PiiProxy.StreamSlots
import PiiProxy.TaskChannel
import PiiProxy.ClientClean
