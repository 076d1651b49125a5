import Kompozer.Xpcom
import Kompozer.Lib.Brackets
import Kompozer.TxMgr.Bound
import Kompozer.TxMgr.Pairing
import Kompozer.TxMgr.Linear
import Kompozer.TxMgr.Merge
import Kompozer.Gfx.Union
import Kompozer.Gfx.Equality
import Kompozer.Gfx.Expressions
import Kompozer.Editor.Typing
import Kompozer.Editor.Session
import Kompozer.Prefs.SetGet
import Kompozer.Prefs.Buffering
import Kompozer.Prefs.LineBuffer
import Kompozer.Prefs.Reload
import Kompozer.Prefs.Reentrancy
import Kompozer.Cache.Allocation
import Kompozer.Cache.MapRun
import Kompozer.Http.Coding
import Kompozer.Http.HeadCached
import Kompozer.Composer.Lossless
import Kompozer.Publish.Independent
import Kompozer.SiteManager.Interleaving
import Kompozer.Text.Sizes
import Kompozer.Cache.MetaMap
import Kompozer.Cache.Protocol
import Kompozer.Cache.StreamContents
import Kompozer.Lib.Blocks
import Kompozer.Dom.AttrAndChildRun
import Kompozer.Io.PipeRun
import Kompozer.Io.StorageRun
import Kompozer.Ds.Deque
import Kompozer.TxMgr.Complete
import Kompozer.Dhash.Run
import Kompozer.Dhash.Ends
import Kompozer.Ds.SmallVoidArrayRun
import Kompozer.TxtSvc.BlocksRun
import Kompozer.Layout.SpaceRun
import Kompozer.Editor.RangeGravity
import Kompozer.Dom.CharacterData
import Kompozer.Prefs.DeleteBranch
import Kompozer.Net.RootMarker
import Kompozer.Prefs.Accepts
import Kompozer.Net.RelativePath
import Kompozer.Lib.Trim
import Kompozer.Net.Filter
import Kompozer.Net.Spans
import Kompozer.Net.PathCover
import Kompozer.Net.UrlCover
import Kompozer.Net.EscapeFlags
import Kompozer.Http.ChunkSizes
import Kompozer.Lib.Cuts
import Kompozer.Publish.Credentials
import Kompozer.Publish.FindSite
import Kompozer.Publish.FtpDirParser
import Kompozer.Publish.FtpDirListing
import Kompozer.Composer.SourceTree
import Kompozer.Composer.SelectionMarkers
import Kompozer.Cache.Eviction
import Kompozer.Lib.Circle
import Kompozer.Cache.Bindery
import Kompozer.Lib.Occurs
import Kompozer.Io.PipeSearch
import Kompozer.TxtSvc.StringOffsets
import Kompozer.Editor.BlockSelection
import Kompozer.Lib.Tiling
import Kompozer.TableEditor.CellMap
import Kompozer.TableEditor.TiledMap
import Kompozer.TableEditor.Edits
import Kompozer.TableEditor.SplitCell
import Kompozer.Citer.CiteString
import Kompozer.Citer.Rewrap
import Kompozer.Citer.Returns
import Kompozer.Citer.StripCites
import Kompozer.Version.Comparator
import Kompozer.Properties.Load
import Kompozer.Composer.ExtractStyles
