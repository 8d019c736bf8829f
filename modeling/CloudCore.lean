import CloudCore.Db.Lock
import CloudCore.Scheduler.Due
import CloudCore.Auth.Authz
import CloudCore.Auth.MasterToken
import CloudCore.Api.Models
import CloudCore.Python.Ipaddress
import CloudCore.Api.Store
import CloudCore.Api.Network
import CloudCore.Api.Instances
import CloudCore.Api.LoadBalancers
import CloudCore.Api.Operations
import CloudCore.Api.Soundness
import CloudCore.Api.Integrity
import CloudCore.Api.LbEdits
import CloudCore.Api.Names
import CloudCore.Api.Serial
import CloudCore.Api.Interference
import CloudCore.Api.Deletion
import CloudCore.Api.Usb
import CloudCore.Scheduler.Runs
import CloudCore.Sync.Pull
import CloudCore.Broker.LabVms
import CloudCore.Broker.Quotas
import CloudCore.Broker.Untracked
import CloudCore.Peers.Revocation
import CloudCore.Peers.Approval
import CloudCore.Peers.References
import CloudCore.Peers.Authentic
import CloudCore.Formats.Lines
import CloudCore.Peers.Wireguard
import CloudCore.Builds.Tofu
import CloudCore.Builds.Playbook
import CloudCore.Python.Decimal
import CloudCore.Python.NetworkText
import CloudCore.SecurityGroups.Rules
import CloudCore.LlmChat.Advice
import CloudCore.LlmChat.AskGate
import CloudCore.LlmChat.RunQueue
import CloudCore.Netfilter.Chains
import CloudCore.Capture.Restore
import CloudCore.Capture.Reverify
import CloudCore.Lfs.Journal
import CloudCore.Lfs.SourceFile
import CloudCore.Lfs.Tutor
import CloudCore.LlmChat.Terminal
import CloudCore.LlmChat.TerminalSteps
import CloudCore.LlmChat.VmSizing
import CloudCore.LlmChat.TerminalLock
import CloudCore.LlmChat.TerminalCount
import CloudCore.LlmChat.Preview
import CloudCore.Lfs.Mirror
import CloudCore.Lfs.MirrorSound
import CloudCore.Lfs.MkdirPattern
import CloudCore.Nfs.Exports
import CloudCore.Nfs.Server
import CloudCore.Nfs.Shares
import CloudCore.LlmChat.LabRun
import CloudCore.LlmChat.LabQueue
import CloudCore.LlmChat.LabMachines
import CloudCore.Builds.GgufMeta
import CloudCore.Builds.LayerSplit
import CloudCore.LlmChat.CodeBlocks
import CloudCore.LlmChat.Execute
import CloudCore.LlmChat.FixRounds
import CloudCore.Scheduler.NextFire
import CloudCore.Scheduler.Picker
import CloudCore.Formats.Shell
import CloudCore.Lfs.DeletionGuard
import CloudCore.Lfs.WorkerDone
import CloudCore.Lfs.WorkerFit
import CloudCore.Lfs.WorkerGuards
import CloudCore.Lfs.WorkerRun
import CloudCore.Kiwix.Updates
import CloudCore.Kiwix.UpdatesSound
import CloudCore.Netfilter.Conntrack
import CloudCore.Vnc.WebSocket
import CloudCore.Builds.CapacityGate
import CloudCore.Lfs.Queue
import CloudCore.Scheduler.Extract
import CloudCore.Sync.Pull
import CloudCore.Capture.Pass
import CloudCore.Capture.RateLimit
import CloudCore.Builds.GgufBounds
import CloudCore.LoadBalancer.Faithful
import CloudCore.Lfs.BookLabels
import CloudCore.Builds.TemplateRead
import CloudCore.Python.Utf8Pieces
import CloudCore.LlmChat.Chunks
import CloudCore.Formats.Ended
import CloudCore.Python.Buffered
import CloudCore.LlmChat.Relay
import CloudCore.LlmChat.RelayLines
import CloudCore.LlmChat.RelayStream
import CloudCore.LlmChat.StepVerdict
import CloudCore.LlmChat.StepRepair
import CloudCore.LlmChat.LoginProber
import CloudCore.LlmChat.Sessions
import CloudCore.Formats.FirstValue
import CloudCore.LlmChat.EditConfig
import CloudCore.Lfs.KeepsWords
import CloudCore.LlmChat.StepLog
import CloudCore.Api.PackageRepo
import CloudCore.LlmChat.Reboots
import CloudCore.LlmChat.RepairedVerdict
import CloudCore.Compute.Snapshots
import CloudCore.LabNetwork.Isolation
import CloudCore.Lfs.Resume
import CloudCore.SecurityGroups.Egress
