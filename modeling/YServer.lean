import YServer.BaseNet.BufferOwnership
import YServer.BaseNet.HttpStream
import YServer.BaseNet.HttpPackets
import YServer.BaseNet.HttpRender
import YServer.BaseNet.HttpMessage
import YServer.BaseNet.HandleClient
import YServer.BaseNet.Socket
import YServer.BaseNet.SubmissionQueue
import YServer.BaseNet.IoUring
import YServer.BaseNet.CompletionQueue
import YServer.BaseNet.AcceptClient
import YServer.BaseNet.Requests
import YServer.BaseNet.Responses
import YServer.BaseNet.SocketLifetime
import YServer.BaseNet.Task
import YServer.BaseNet.Listen
import YServer.BaseNet.CoAwait
import YServer.BaseNet.Bind
import YServer.BaseNet.MessageStorage
import YServer.BaseNet.Splice
import YServer.BaseNet.Shutdown
import YServer.WebFrame.Context
import YServer.WebFrame.Router
import YServer.WebFrame.Engine
import YServer.Config.ConfigVar
import YServer.Config.FromString
import YServer.Config.LoadFromYaml
import YServer.Config.Reload
import YServer.Config.Aliases
import YServer.Config.LexicalCast
import YServer.Config.Registry
import YServer.Config.Listeners
import YServer.Config.LoadFromConfigDir
import YServer.BaseNet.SyncWait
import YServer.BaseNet.PoolRest
import YServer.BaseNet.Teardown
import YServer.BaseNet.BufferContents
import YServer.WebFrame.Conversation
import YServer.BaseNet.ListenStart
import YServer.BaseNet.BufferedWorker
import YServer.BaseNet.BufferedExchange
import YServer.BaseNet.WorkerRest
import YServer.WebFrame.Answered
import YServer.BaseNet.Faults
