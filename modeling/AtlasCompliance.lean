import AtlasCompliance.Lib.Transition
import AtlasCompliance.Lib.History
import AtlasCompliance.Lib.HashChain
import AtlasCompliance.Lib.Delimited
import AtlasCompliance.Lib.Json
import AtlasCompliance.Lib.Regex
import AtlasCompliance.Lib.RegexLanguage
import AtlasCompliance.Lib.Scan
import AtlasCompliance.Lib.Replace
import AtlasCompliance.Lib.Places
import AtlasCompliance.Lib.Preferred
import AtlasCompliance.Lib.Seams
import AtlasCompliance.Lib.Tagged
import AtlasCompliance.Lib.Expiring
import AtlasCompliance.Lib.TokenBucket
import AtlasCompliance.Java.Text
import AtlasCompliance.Java.Units
import AtlasCompliance.Java.Instant
import AtlasCompliance.Java.LocalDate
import AtlasCompliance.Java.Sha256
import AtlasCompliance.Clearance
import AtlasCompliance.Auth.Tokens
import AtlasCompliance.Auth.TokenKinds
import AtlasCompliance.McpTools.AuditChain
import AtlasCompliance.McpTools.TamperEvidence
import AtlasCompliance.McpTools.ArgsDigest
import AtlasCompliance.McpTools.AuditAppend
import AtlasCompliance.McpTools.DraftRefs
import AtlasCompliance.McpTools.DraftSarTool
import AtlasCompliance.McpTools.GovernedWrite
import AtlasCompliance.Python.Value
import AtlasCompliance.Agents.State
import AtlasCompliance.Agents.Nodes
import AtlasCompliance.Agents.Graph
import AtlasCompliance.Agents.Runner
import AtlasCompliance.Agents.Approval
import AtlasCompliance.Agents.SingleUse
import AtlasCompliance.Agents.Decision
import AtlasCompliance.Agents.Amounts
import AtlasCompliance.Agents.CutAmounts
import AtlasCompliance.Agents.Gates
import AtlasCompliance.Gateway.RateLimiter
import AtlasCompliance.Gateway.Budget
import AtlasCompliance.RagEngine.Chunk
import AtlasCompliance.RagEngine.Guardrail
import AtlasCompliance.RagEngine.Citations
import AtlasCompliance.Agents.SnippetAmounts
import AtlasCompliance.RagEngine.QueryService
import AtlasCompliance.RagEngine.PromptStructure
import AtlasCompliance.RagEngine.Reading
import AtlasCompliance.RagEngine.Splice
import AtlasCompliance.RagEngine.Injection
import AtlasCompliance.RagEngine.DocumentChunker
import AtlasCompliance.Lib.Words
import AtlasCompliance.RagEngine.Chunking
import AtlasCompliance.Lib.RankFusion
import AtlasCompliance.RagEngine.ReciprocalRankFusion
import AtlasCompliance.RagEngine.Retrieval
import AtlasCompliance.RagEngine.QueryApi
import AtlasCompliance.RagEngine.LlmReranker
import AtlasCompliance.RagEngine.FrontMatter
import AtlasCompliance.Lib.Pages
import AtlasCompliance.McpTools.AuditQuery
import AtlasCompliance.RagEngine.CorpusTables
import AtlasCompliance.Training.Lifecycle
import AtlasCompliance.Lib.Handling
import AtlasCompliance.RagEngine.Ingestion
import AtlasCompliance.Gateway.Routing
import AtlasCompliance.Gateway.Safety
import AtlasCompliance.Infra.GpuSession
import AtlasCompliance.Infra.GpuWatchdog
import AtlasCompliance.Gateway.Sanitizer
import AtlasCompliance.Lib.Pieces
import AtlasCompliance.Gateway.Redactor
import AtlasCompliance.Lib.Cut
import AtlasCompliance.Lib.Patched
import AtlasCompliance.Gateway.Cleanse
import AtlasCompliance.Gateway.QueryController
import AtlasCompliance.Gateway.Serving
import AtlasCompliance.Gateway.Egress
import AtlasCompliance.Gateway.Charging
import AtlasCompliance.Gateway.Replay
import AtlasCompliance.Agents.JsonRpc
import AtlasCompliance.Agents.Retry
import AtlasCompliance.Evals.Adversarial
import AtlasCompliance.Evals.FormatValidity
import AtlasCompliance.Evals.MergeGate
import AtlasCompliance.Lib.Arranged
import AtlasCompliance.Lib.Looping
import AtlasCompliance.Lib.Midranks
import AtlasCompliance.Training.Citation
import AtlasCompliance.Training.Dataset
import AtlasCompliance.Training.Jsonl
import AtlasCompliance.Training.Manifest
import AtlasCompliance.Training.Wilcoxon
import AtlasCompliance.Evals.Cassettes
import AtlasCompliance.Infra.LoadRunner
import AtlasCompliance.Training.Percentile
import AtlasCompliance.Agents.FilteredAmounts
import AtlasCompliance.Agents.Proposals
import AtlasCompliance.Lib.Observing
import AtlasCompliance.Gateway.Noninterference
