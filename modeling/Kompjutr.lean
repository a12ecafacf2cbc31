import Kompjutr.Diff.SwapSound
import Kompjutr.Diff.TextDiff
import Kompjutr.Common.Join
import Kompjutr.Refs.Config
import Kompjutr.Pack.ChunkWriter
import Kompjutr.Pack.TreeScanner
import Kompjutr.Pack.ReferenceDictionary
import Kompjutr.Pack.EntryHeaderSound
import Kompjutr.Refs.RefspecSound
import Kompjutr.Refs.ServerPublicationSound
import Kompjutr.Ops.TreeBuildPreflight
import Kompjutr.Ops.CommitSound
import Kompjutr.Common.LruLinks
import Kompjutr.Pack.ResolverSound
import Kompjutr.Graph.HeadersAccepted
import Kompjutr.Pack.IngestSound
import Kompjutr.Refs.FetchPublicationSound
import Kompjutr.Protocol.Sideband
import Kompjutr.Operations.JournalSound
import Kompjutr.Fs.ResolveSound
import Kompjutr.Fs.MountedRuns
import Kompjutr.Index.TableSound
import Kompjutr.Trees.CommitCacheSound
import Kompjutr.Rebase.PlanSound
import Kompjutr.Push.ClosureSound
import Kompjutr.Status.RenamesSound
import Kompjutr.Fs.FlatFile
import Kompjutr.Fs.RenameSound
import Kompjutr.Sort.CommandSound
import Kompjutr.Merge.ProjectionSound
import Kompjutr.Patch.LocateSound
import Kompjutr.Recovery.JournalPrefix
