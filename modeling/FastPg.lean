import FastPg.Pgcore.Lane
import FastPg.Wire.Connection
import FastPg.Storage.Shortcut
import FastPg.Storage.TableScan
import FastPg.Wire.Statements
import FastPg.Index.Cursor
import FastPg.Index.Identity
import FastPg.Storage.Handed
import FastPg.Storage.Replace
import FastPg.Copy.Errors
import FastPg.Catalog.Databases
import FastPg.Storage.Named
import FastPg.Catalog.Caches
import FastPg.Catalog.Scans
import FastPg.Catalog.Arrays
import FastPg.Wire.Frames
import FastPg.Storage.Layout
import FastPg.Legacy.Session
