import LocalAi.Engine.Lossless
import LocalAi.Engine.Milestones
import LocalAi.Sampling.Tree
import LocalAi.Store.Lease
import LocalAi.PromptCache.Eviction
import LocalAi.Store.Blobs
import LocalAi.Store.RoundTrip
import LocalAi.Answer.Structured
import LocalAi.Background.Marker
import LocalAi.Background.Sequence
import LocalAi.Admin.Life
import LocalAi.Workspace.Confined
import LocalAi.Workspace.Edit
import LocalAi.Workspace.ReadTool
import LocalAi.Batches.Settle
import LocalAi.FileStore.Kept
import LocalAi.ToolLoop.Kept
import LocalAi.ToolLoop.Replay
import LocalAi.Chat.Agree
import LocalAi.Conversations.Once
import LocalAi.FileSearch.Splits
import LocalAi.PromptCache.Budget
import LocalAi.PromptCache.FileRoundTrip
import LocalAi.Prompt.Calls
import LocalAi.Tokenizer.Boundaries
import LocalAi.Vision.Positions
import LocalAi.Vision.Count
import LocalAi.Answer.Logprobs
import LocalAi.Prompt.Paired
import LocalAi.Ngram.Suffix
import LocalAi.VectorStores.Chunk
import LocalAi.VectorStores.Rank
import LocalAi.VectorStores.Window
import LocalAi.Fetch.Overrun
import LocalAi.Admin.Buckets
import LocalAi.Mtp.RoundTrip
import LocalAi.Scheduler.Budget
import LocalAi.Reasoning.Binding
import LocalAi.Judgment.Gate
import LocalAi.Transcription.Stream
import LocalAi.Dflash.Optimal
import LocalAi.Speech.Decimals
import LocalAi.Scheduler.Policy
import LocalAi.Dflash.Context
import LocalAi.Speech.Opus
import LocalAi.Engine.MemoryPlan
import LocalAi.Transcription.Captions
import LocalAi.Engine.Lent
import LocalAi.Transcription.Words
import LocalAi.Sampling.Forbid
