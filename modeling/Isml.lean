import Isml.Library.ByteOrder
import Isml.Library.StringStream
import Isml.Library.LabelledRun
import Isml.Library.NodeList
import Isml.Base.Byte
import Isml.Base.Exceptions
import Isml.Serialization.Value
import Isml.Serialization.Types
import Isml.Serialization.BinarySerializer
import Isml.Serialization.BinaryEncoding
import Isml.Serialization.BinaryRoundTrip
import Isml.Serialization.CompositeSerializer
import Isml.Message.FieldSet
import Isml.Message.Message
import Isml.Message.FieldOrder
import Isml.Transport.FrameSync
import Isml.Serialization.ShortReads
import Isml.Transport.PayloadRoundTrip
import Isml.Serialization.BinaryScan
import Isml.Transport.Delivery
import Isml.Transport.SendInterleaving
import Isml.Transport.WriteInFlight
import Isml.Transport.StrandedMessages
import Isml.Library.Threads
import Isml.Task.Task
import Isml.Task.Cancellation
import Isml.Task.FutureReady
import Isml.Executors.ThreadPoolTaskExecutor
import Isml.Library.PriorityQueue
import Isml.Task.TaskScheduler
import Isml.Task.SchedulerShutdown
import Isml.Task.EarlyHandover
import Isml.Task.WakeUpTime
import Isml.Executors.ActionLedger
import Isml.Task.Conservation
import Isml.Session.SessionManager
import Isml.Session.SessionTable
import Isml.Service.MessagingService
import Isml.Service.ServiceManager
import Isml.Service.StopReturns
import Isml.Transport.PendingRequests
import Isml.Task.PromiseOnce
import Isml.Serialization.HostIndependence
import Isml.Message.MessageRoundTrip
import Isml.Session.ActiveSession
import Isml.Transport.Segmentation
import Isml.Library.NamedMap
import Isml.Library.ObjectStore
import Isml.Session.SessionCreation
import Isml.Message.FieldSetMap
import Isml.Message.MessageFields
import Isml.Transport.MessageIds
import Isml.Service.Connect
import Isml.Task.Completion
import Isml.Task.AtMostOnce
import Isml.Task.Answers
import Isml.Executors.Shutdown
import Isml.Executors.Completable
import Isml.Executors.SubmissionOrder
import Isml.Executors.Joinable
import Isml.Task.ScheduledWork
import Isml.Task.SingleCall
import Isml.Task.SubmittedTasks
import Isml.Task.DueFirst
import Isml.Message.SerializedSize
import Isml.Transport.OutgoingBuffer
import Isml.Serialization.ContainerCounts
import Isml.Message.ReusedMessage
import Isml.Message.Channels.PubSubMessageChannel
import Isml.Message.Channels.Publishing
import Isml.Message.Channels.Unsubscription
import Isml.Message.Channels.Subscriptions
import Isml.Library.Decimal
import Isml.Library.Regex
import Isml.Net.Url
import Isml.Net.UrlParts
import Isml.Net.QueryParameters
import Isml.Net.UrlForm
import Isml.Net.UnreservedParameters
import Isml.Net.Ports
import Isml.Net.UrlRoundTrip
import Isml.Net.CanonicalUrl
import Isml.Net.AcceptedUrls
import Isml.Base.Listenable
import Isml.Io.JsonUtils
import Isml.Io.JsonLayers
import Isml.Serialization.ReceivedValues
import Isml.Message.ReceivedMessages
import Isml.Message.FactoryLayouts
import Isml.Serialization.JsonSerializer
import Isml.Message.JsonMessages
import Isml.Transport.ReceivePath
import Isml.Transport.PeerMessages
import Isml.Transport.AnsweredRequests
import Isml.Message.MessageDispatcher
import Isml.Message.DispatcherPrograms
import Isml.Session.SessionProperties
import Isml.Transport.ConcurrentReceive
import Isml.Transport.FailedRequest
import Isml.Library.Custody
import Isml.Utility.DeferredCall
import Isml.Utility.ThreadJoiner
