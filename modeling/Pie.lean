import Pie.Proof.Appends
import Pie.Proof.Arena
import Pie.Proof.Bpe
import Pie.Proof.BrleFill
import Pie.Proof.BrlePages
import Pie.Proof.BufferRuns
import Pie.Proof.CanonicalFiles
import Pie.Proof.CanonicalUnigram
import Pie.Proof.Channels
import Pie.Proof.CharClasses
import Pie.Proof.Coalesce
import Pie.Proof.Commits
import Pie.Proof.ContainerRoundTrip
import Pie.Proof.Cuts
import Pie.Proof.Descriptors
import Pie.Proof.Fits
import Pie.Proof.Forks
import Pie.Proof.Geometry
import Pie.Proof.Inversions
import Pie.Proof.Mounted
import Pie.Proof.NumberRegex
import Pie.Proof.Packing
import Pie.Proof.PageKeys
import Pie.Proof.Paging
import Pie.Proof.Prefetch
import Pie.Proof.Properties
import Pie.Proof.Publishing
import Pie.Proof.Reductions
import Pie.Proof.Resharding
import Pie.Proof.Seals
import Pie.Proof.Settlements
import Pie.Proof.Spellings
import Pie.Proof.Steps
import Pie.Proof.Streaming
import Pie.Proof.Subtrees
import Pie.Proof.TokenLog
import Pie.Proof.WakerWaits
