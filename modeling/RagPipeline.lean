import RagPipeline.Application.Recovery
import RagPipeline.Application.Removed
import RagPipeline.Index.Requested
import RagPipeline.Index.Context
import RagPipeline.JobQueue.Ownership
import RagPipeline.Extraction.Highlights
import RagPipeline.Extraction.Grid
import RagPipeline.Extraction.Numbers
import RagPipeline.Baseline.Walk
import RagPipeline.RunState.Advance
import RagPipeline.Diagnostics.Failures
import RagPipeline.Control.Nonces
import RagPipeline.Finalization.Refused
import RagPipeline.Runner.Runs
import RagPipeline.Speech.Engine
import RagPipeline.Api.OnePrincipal
import RagPipeline.Retrieval.Rebuild
import RagPipeline.Changes.Narrows
import RagPipeline.Mirror.Passes
import RagPipeline.Answer.Printed
import RagPipeline.Answer.Serialised
import RagPipeline.Calls.Whole
import RagPipeline.Schemas.Audit
import RagPipeline.Source.Purge
import RagPipeline.Workspace.Recover
import RagPipeline.Index.Chunking
import RagPipeline.Org.Hierarchy
import RagPipeline.Control.Received
import RagPipeline.Scan.Verdict
import RagPipeline.Oidc.Runs
import RagPipeline.KeyLedger.Rotates
import RagPipeline.Adversarial.Completions
import RagPipeline.Calls.Pipes
import RagPipeline.Extraction.Assembled
import RagPipeline.Datasets.Committed
import RagPipeline.Inventory.Pages
import RagPipeline.Scoring.TableDistance
import RagPipeline.Index.Locking
import RagPipeline.Adversarial.OnlyCounts
import RagPipeline.FsEvidence.Posix
